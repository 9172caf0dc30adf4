import LiveIndex.World.Run

namespace LiveIndex.Command

open World

/-- Fills in what was printed along the way. -/
def exitOf (code : Nat) (last : Last) : Act Exit := do
  print last.output
  printError last.errors
  let w ← get
  return ⟨code, w.output, w.errors⟩

/-- Runs a command's work and prints its last lines, or what is said of its failure. Failures that
nothing is said of are handed on. -/
def finish (work : Work) (failureText : Failure → Option String) : Act (Except Failure Exit) := do
  match ← runCall (.command work) with
  | .ok (.last last) => return .ok (← exitOf 0 last)
  | .ok _ => return .ok (← exitOf 0 ⟨"", ""⟩)
  | .error f =>
    match failureText f with
    | some text => return .ok (← exitOf 1 ⟨"", text⟩)
    | none => return .error f

def fileSize (d : Disk) (path : String) : Int :=
  match d.find path with
  | .ok (.file content) => content.size
  | _ => 4096

/-- Shows the stored index of a keeper. -/
def runStatus (keeper : Nat) : Act (Except Failure Exit) := do
  let k := (← get).keeperOf keeper
  if !(← get).disk.exists? k.indexPath then
    let text := "No index at " ++ k.indexPath ++
      "\nRun 'folder-index-mcp index' to build it.\n"
    return .ok (← exitOf 1 ⟨"", text⟩)
  else
    match ← runCall (.command (.load keeper)) with
    | .error f => return .error f
    | .ok _ =>
      let w ← get
      let s := w.indexOf k.index
      match statusText k.root k.indexPath s.stats s.version (fileSize w.disk k.indexPath) with
      | .error f => return .error f
      | .ok text => return .ok (← exitOf 0 ⟨text, ""⟩)

/-- What is said of a search that cannot read its index. -/
def searchFailure (f : Failure) : Option String :=
  if f.family = .system then some ("✗ Cannot read index: " ++ f.message ++ "\n") else none

/-- Runs a command on a keeper that was made for it. -/
def runOn (keeper : Nat) (c : Command) : Act (Except Failure Exit) := do
  let k := (← get).keeperOf keeper
  match c with
  | .index verbose =>
    print ("Indexing " ++ k.root ++ "...\nIndex location: " ++ k.indexPath ++ "\n\n")
    finish (.index keeper verbose) fun f => some (indexFailure f)
  | .rebuild verbose =>
    print ("Rebuilding index of " ++ k.root ++ "...\n")
    finish (.rebuild keeper verbose) fun f =>
      some ("\n✗ Rebuild failed: " ++ f.message ++ "\n")
  | .search query exact limit => finish (.search keeper query exact limit) searchFailure
  | .status => runStatus keeper
  | .serve _ => return .ok (← exitOf 0 ⟨"", ""⟩)

/-- The line that stands for a running server. -/
def serveText (watch : Bool) : String :=
  "[mcp.run watch=" ++ (if watch then "True" else "False") ++ "]\n"

def run (c : Command) : Act (Except Failure Exit) := do
  modify fun w => { w with output := "", errors := "" }
  match c with
  | .serve watch => return .ok (.ok (serveText watch))
  | c =>
    match ← newKeeper .none with
    | .error f => return .error f
    | .ok keeper => runOn keeper c

end LiveIndex.Command
