import LiveIndex.Matching.Finder
import LiveIndex.Report.Format
import LiveIndex.Stats

/-! The commands of the program, their arguments and what they print. -/

namespace LiveIndex

/-- What the program can be told to do. -/
inductive Command
  | serve (watch : Bool)
  | index (verbose : Bool)
  | status
  | search (query : String) (exact : Bool) (limit : Int)
  | rebuild (verbose : Bool)
  deriving DecidableEq, Repr

namespace Command

/-- The options among arguments. -/
structure Flags where
  verbose : Bool
  watch : Bool
  exact : Bool
  limit : Option Int
  words : List String

def Flags.none : Flags :=
  ⟨false, false, false, .none, []⟩

/-- Reads arguments from left to right. -/
def flags (f : Flags) : List String → Option Flags
  | [] => some { f with words := f.words.reverse }
  | "--verbose" :: rest | "-v" :: rest => flags { f with verbose := true } rest
  | "--no-verbose" :: rest => flags { f with verbose := false } rest
  | "--watch" :: rest | "-w" :: rest => flags { f with watch := true } rest
  | "--no-watch" :: rest => flags { f with watch := false } rest
  | "--exact" :: rest | "-e" :: rest => flags { f with exact := true } rest
  | "--no-exact" :: rest => flags { f with exact := false } rest
  | "--limit" :: n :: rest | "-n" :: n :: rest =>
    match Number.readInteger n with
    | .ok n => flags { f with limit := some n } rest
    | .error _ => .none
  | word :: rest =>
    if Text.startsWith word "--limit=" then
      match Number.readInteger ((word.drop 8).toString) with
      | .ok n => flags { f with limit := some n } rest
      | .error _ => .none
    else flags { f with words := word :: f.words } rest

/-- The command that arguments spell. Without a name it is to serve. -/
def ofArguments (args : List String) : Option Command :=
  match flags .none args with
  | .none => .none
  | some f =>
    match f.words with
    | [] | ["serve"] => some (.serve f.watch)
    | ["index"] => some (.index f.verbose)
    | ["status"] => some .status
    | ["rebuild"] => some (.rebuild f.verbose)
    | ["search", query] => some (.search query f.exact (f.limit.getD 20))
    | _ => .none

/-- How a command left off: its exit code, and what it printed. -/
structure Exit where
  code : Nat
  output : String
  errors : String
  deriving DecidableEq, Repr

def Exit.ok (output : String) : Exit :=
  ⟨0, output, ""⟩

/-- The table of an index. -/
def statusText (root indexPath : String) (stats : Stats) (version size : Int) :
    Except Failure String := do
  let total ← Report.size stats.size
  let stored ← Report.size size
  let updated ← Report.timestamp stats.lastUpdated
  let rows :=
    [ ("Root", root), ("Location", indexPath), ("Files", Number.grouped stats.files),
      ("Directories", Number.grouped stats.directories), ("Total size", total),
      ("Snapshot", stored), ("Version", toString version), ("Last update", updated) ]
  let lines := rows.map fun r => Report.padRight 13 (r.1 ++ ":") ++ " " ++ r.2 ++ "\n"
  return "Folder Index Status\n" ++ String.ofList (List.replicate 40 '=') ++ "\n" ++
    String.join lines

/-- One search result on a line. -/
def hitText (h : Matching.Hit) : String :=
  Report.padLeft 5 (Number.fixed 3 h.score) ++ "  " ++ h.entry.relativePath ++
    (if h.entry.isDirectory then "/" else "") ++ "\n"

def hitsText (hits : List Matching.Hit) : String :=
  if hits.isEmpty then "No matches.\n" else String.join (hits.map hitText)

/-- What is said of a failed build. -/
def indexFailure (f : Failure) : String :=
  match f with
  | .accessDenied _ | .rootLocked _ => "\n✗ Permission denied: " ++ f.message ++ "\n"
  | .noSuchFile _ | .rootMissing _ | .notDirectory _ | .rootNotDirectory _ =>
    "\n✗ Not a directory: " ++ f.message ++ "\n"
  | _ => "\n✗ Indexing failed: " ++ f.message ++ "\n"

/-- What a command does on an index. -/
inductive Work
  | index (keeper : Nat) (verbose : Bool)
  | load (keeper : Nat)
  | search (keeper : Nat) (query : String) (exact : Bool) (limit : Int)
  | rebuild (keeper : Nat) (verbose : Bool)

/-- What is printed at the end. -/
structure Last where
  output : String
  errors : String

/-- Where the work waits. -/
inductive Waiting
  | opening (work : Work)
  | finishing (work : Work)
  | closing (last : Except Failure Last)

end Command

end LiveIndex
