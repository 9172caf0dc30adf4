import LiveIndex.Disk.Basic
import LiveIndex.Entry

namespace LiveIndex

/-- Metadata of a path. Times are seconds since the start of 1970. -/
structure Stat where
  kind : Kind
  size : Int
  modified : Rat
  created : Rat
  deriving DecidableEq, Repr

/-- The kind that the type bits of a file mode name. Everything that is neither a link nor a
directory counts as a file. -/
def Kind.ofMode (mode : Nat) : Kind :=
  let type := mode / 4096 % 16
  if type = 10 then .link else if type = 4 then .directory else .file

/-- A path as seen from a root. -/
def relativeTo (path root : String) : Except Failure String :=
  match Path.relative? path root with
  | some r => .ok r
  | none => .error .noPath

/-- A stamp of a number of seconds since the start of 1970. -/
def stampOf (seconds : Rat) : Except Failure Time.Stamp :=
  (Time.ofSeconds seconds).mapError .time

/-- The entry of a path with known metadata. Directories have neither extension nor size. -/
def Stat.entry (st : Stat) (path root : String) : Except Failure Entry := do
  let isDir := st.kind = .directory
  let relativePath ← relativeTo path root
  let created ← stampOf st.created
  let modified ← stampOf st.modified
  return {
    path
    name := Path.baseName path
    relativePath
    extension := if isDir then "" else Path.extension path
    size := if isDir then 0 else st.size
    created, modified
    kind := st.kind }

namespace Disk

/-- The metadata of what stands at a path itself. A link is as large as its target is long. -/
def stat (d : Disk) (path : String) : Except Failure Stat :=
  let m := d.markOf path
  match m.statFault with
  | some .vanished => .error (.noSuchFile path)
  | some .denied => .error (.accessDenied path)
  | none =>
    match d.peek path with
    | .error e => .error e
    | .ok (.file content) => .ok ⟨.file, content.size, m.modified, m.changed⟩
    | .ok (.link dest) => .ok ⟨.link, dest.utf8ByteSize, m.modified, m.changed⟩
    | .ok (.dir _) => .ok ⟨.directory, 0, m.modified, m.changed⟩

/-- The current entry of a path. -/
def entry (d : Disk) (path root : String) : Except Failure Entry :=
  d.stat path >>= fun st => st.entry path root

end Disk

end LiveIndex
