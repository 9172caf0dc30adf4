import LiveIndex.Entry

namespace LiveIndex

/-- Counters over a set of entries and the time of the last change, in milliseconds. -/
structure Stats where
  files : Int
  directories : Int
  size : Int
  lastUpdated : Int
  deriving DecidableEq, Repr, Inhabited

namespace Stats

def zero (lastUpdated : Int) : Stats :=
  ⟨0, 0, 0, lastUpdated⟩

/-- Counts an entry `sign` times. Directories have no size. -/
def apply (s : Stats) (e : Entry) (sign : Int) : Stats :=
  if e.isDirectory then { s with directories := s.directories + sign }
  else { s with files := s.files + sign, size := s.size + sign * e.size }

/-- The counters without the time. -/
def counters (s : Stats) : Int × Int × Int :=
  (s.files, s.directories, s.size)

def ofEntries (entries : List Entry) (lastUpdated : Int) : Stats :=
  entries.foldl (fun s e => s.apply e 1) (zero lastUpdated)

def toJson (s : Stats) : Json :=
  .obj
    [ ("totalFiles", .int s.files), ("totalDirectories", .int s.directories),
      ("totalSize", .int s.size), ("lastUpdated", .int s.lastUpdated) ]

/-- Reads counters; missing ones are zero. -/
def ofJson : Json → Except Failure Stats
  | .obj fields => do
    let count (name : String) : Except Failure Int :=
      ((Json.field? name fields).getD (.int 0)).toInteger
    let files ← count "totalFiles"
    let directories ← count "totalDirectories"
    let size ← count "totalSize"
    let lastUpdated ← count "lastUpdated"
    return ⟨files, directories, size, lastUpdated⟩
  | v => .error (.noFields v.kindWord)

/-- The counters as they are shown in messages. -/
def countersText (s : Stats) : String :=
  "(" ++ toString s.files ++ ", " ++ toString s.directories ++ ", " ++ toString s.size ++ ")"

end Stats

end LiveIndex
