import LiveIndex.Disk.Walk
import LiveIndex.Text.Order

/-! Settings come from environment variables. A variable that is set and empty counts as set,
except for the two places. -/

namespace LiveIndex

/-- The directory under a root that holds the stored index; it is never indexed. -/
def cacheDir : String := ".index-cache"

def indexFile : String := "index.json"

def defaultExtensions : List String :=
  [".md", ".mmd", ".txt", ".json", ".yml", ".yaml"]

def defaultExcluded : List String :=
  [ "node_modules", ".git", "dist", "build", "coverage", ".next", ".nuxt", "target",
    "__pycache__", "venv", "env", ".env" ]

/-- The environment that settings are read from: its variables, and the home directory. -/
structure Environment where
  bindings : List (String × String)
  home : String

/-- The parts of a list with commas, trimmed, without the empty ones. -/
def listItems (value : String) : List String :=
  ((Text.split ',' value).map Text.strip).filter (· ≠ "")

/-- An extension in lower case with its dot. -/
def dotted (extension : String) : String :=
  Text.lower (if Text.startsWith extension "." then extension else "." ++ extension)

namespace Environment

def get? (env : Environment) (name : String) : Option String :=
  (env.bindings.find? (·.1 = name)).map Prod.snd

/-- The value of a variable that is set and not empty. -/
def filled? (env : Environment) (name : String) : Option String :=
  (env.get? name).filter (· ≠ "")

def root (env : Environment) (d : Disk) : Except Failure String :=
  match env.filled? "FOLDER_INDEX_ROOT" with
  | some path => Path.expandHome env.home path >>= d.resolve
  | none => .ok "/"

/-- The default place of the stored index of a root. -/
def defaultIndexPath (root : String) : String :=
  Path.tidyJoin (Path.tidyJoin root cacheDir) indexFile

def indexPath (env : Environment) (root : String) : Except Failure String :=
  match env.filled? "FOLDER_INDEX_PATH" with
  | some path => Path.expandHome env.home path
  | none => .ok (defaultIndexPath root)

/-- The extensions that are indexed. -/
def extensions (env : Environment) : List String :=
  match env.get? "FOLDER_INDEX_EXTENSIONS" with
  | some value => Text.sortedSet ((listItems value).map dotted)
  | none => Text.sortedSet defaultExtensions

/-- The names of directories that are left out. -/
def excluded (env : Environment) : List String :=
  let names :=
    match env.get? "FOLDER_INDEX_EXCLUDE_DIRS" with
    | some value => listItems value
    | none => defaultExcluded
  Text.sortedSet (cacheDir :: names)

def number (env : Environment) (name : String) (default : Int) : Except Failure Int :=
  match env.get? name with
  | some value => (Json.str value).toInteger
  | none => .ok default

/-- The quiet time of a watched path. -/
def watchDebounce (env : Environment) : Except Failure Int :=
  env.number "FOLDER_INDEX_WATCH_DEBOUNCE_MS" 300

/-- The quiet time before changes are gathered into a batch. -/
def debounce (env : Environment) : Except Failure Int :=
  env.number "FOLDER_INDEX_DEBOUNCE_MS" 300

/-- The time in which a batch is gathered. -/
def batchWindow (env : Environment) : Except Failure Int :=
  env.number "FOLDER_INDEX_BATCH_MS" 1000

/-- How often a failed change is tried again. -/
def maxRetries (env : Environment) : Except Failure Int :=
  env.number "FOLDER_INDEX_MAX_RETRIES" 3

def searchLimit (env : Environment) : Except Failure Int :=
  env.number "FOLDER_INDEX_SEARCH_LIMIT" 20

/-- Whether the file system is polled. -/
def forcePolling (env : Environment) : Bool :=
  let value := (env.get? "FOLDER_INDEX_FORCE_POLLING").getD ""
  Text.lower (Text.strip value) ∈ ["1", "true", "yes", "on"]

end Environment

end LiveIndex
