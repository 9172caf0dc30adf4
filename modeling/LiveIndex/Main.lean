import LiveIndex.Command.Run
import Std.Time.DateTime.Timestamp

namespace LiveIndex.Main

def variableNames : List String :=
  [ "FOLDER_INDEX_ROOT", "FOLDER_INDEX_PATH", "FOLDER_INDEX_EXTENSIONS",
    "FOLDER_INDEX_EXCLUDE_DIRS", "FOLDER_INDEX_SEARCH_LIMIT", "FOLDER_INDEX_WATCH_DEBOUNCE_MS",
    "FOLDER_INDEX_DEBOUNCE_MS", "FOLDER_INDEX_BATCH_MS", "FOLDER_INDEX_MAX_RETRIES",
    "FOLDER_INDEX_FORCE_POLLING" ]

/-- The environment of this process. The root is the current directory unless another one is
set. -/
def readEnvironment : IO Environment := do
  let here := (← IO.currentDir).toString
  let home := (← IO.getEnv "HOME").getD "/"
  let mut bindings := []
  for name in variableNames do
    if let some value ← IO.getEnv name then bindings := (name, value) :: bindings
  let env : Environment := ⟨bindings, home⟩
  match env.filled? "FOLDER_INDEX_ROOT" with
  | some root =>
    let root := if Text.startsWith root "~" then root else Path.join here root
    return { env with bindings := ("FOLDER_INDEX_ROOT", root) :: bindings }
  | none => return { env with bindings := ("FOLDER_INDEX_ROOT", here) :: bindings }

def seconds (t : IO.FS.SystemTime) : Rat :=
  t.sec + mkRat t.nsec.toNat 1000000000

/-- Copies what stands at a path, with everything beneath it, from the real disk. Directories with
the given names stay empty, and files are as large as they are but hold nothing. -/
partial def copyEntry (skipped : List String) (d : Disk) (e : IO.FS.DirEntry) : IO Disk := do
  let path := e.path.toString
  try
    let m ← e.path.symlinkMetadata
    let mark : Mark := ⟨seconds m.modified, seconds m.modified, none, false⟩
    match m.type with
    | .dir =>
      let d := (d.put path (.dir [])).mark path mark
      if e.fileName ∈ skipped then return d
      try
        (← e.path.readDir).foldlM (copyEntry skipped) d
      catch _ => return d.mark path { mark with unreadable := true }
    | .symlink =>
      let target ← try pure (← IO.FS.realPath e.path).toString catch _ => pure "missing"
      return (d.put path (.link target)).mark path mark
    | _ => return (d.put path (.file (.filler m.byteSize.toNat))).mark path mark
  catch _ => return d

/-- Copies the content root and the stored index. -/
def readDisk (env : Environment) (root index : String) : IO Disk := do
  let parent := Path.parent root
  let d := (Disk.mk (.dir []) []).put parent (.dir [])
  let d ← copyEntry env.excluded d ⟨parent, Path.lastName root⟩
  try
    return d.put index (.file (.text (← IO.FS.readFile index)))
  catch _ => return d

/-- Writes the stored index if it has changed. -/
def writeIndex (before after : Disk) (index : String) : IO Unit := do
  match (after.read index).toOption with
  | some (.text text) =>
    if (before.read index).toOption ≠ some (.text text) then
      IO.FS.createDirAll (Path.parent index)
      IO.FS.writeFile (Disk.draftPath index) text
      IO.FS.rename (Disk.draftPath index) index
  | _ => pure ()

/-- Prints what a command printed and hands on its exit code. -/
def report (e : Command.Exit) : IO UInt32 := do
  (← IO.getStdout).putStr e.output
  (← IO.getStderr).putStr e.errors
  return e.code.toUInt32

/-- Runs a command on a copy of the disk, and stores the index that comes of it. -/
def runCommand (c : Command) : IO UInt32 := do
  let env ← readEnvironment
  let root := (env.filled? "FOLDER_INDEX_ROOT").getD "/"
  let index := (env.indexPath root).toOption.getD (Environment.defaultIndexPath root)
  let disk ← readDisk env root index
  let time := (← Std.Time.Timestamp.now).toMillisecondsSinceUnixEpoch.val
  let w := { World.create disk env with clock := time - World.startTime }
  let (result, w) := (Command.run c).run w
  writeIndex disk w.disk index
  match result with
  | .ok e => report e
  | .error f => report ⟨1, "", f.message ++ "\n"⟩

end LiveIndex.Main

def main (args : List String) : IO UInt32 :=
  match LiveIndex.Command.ofArguments args with
  | some c => LiveIndex.Main.runCommand c
  | none => do
    (← IO.getStderr).putStr "usage: [index | status | search QUERY | rebuild | serve] [options]\n"
    return 2
