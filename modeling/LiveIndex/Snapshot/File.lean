import LiveIndex.Disk.Basic
import LiveIndex.Snapshot

/-! Reading and replacing a stored index. The new text is complete beside the old one before it
takes its place, so that a failure at any step leaves the old text alone. -/

namespace LiveIndex.Disk

/-- The stored index in what opening its file gives. -/
def decodeSnapshot : Except Failure Content → Except Failure Snapshot
  | .error e => .error e
  | .ok content =>
    match content.text? with
    | some text => Snapshot.ofText text
    | none => .error .badEncoding

def loadSnapshot (d : Disk) (path : String) : Except Failure Snapshot :=
  decodeSnapshot (d.read path)

/-- The file that is written in place of a stored index until it is complete. -/
def draftPath (path : String) : String :=
  path ++ ".tmp"

/-- Writes a file whole or not at all: it is written beside its place and then moved there, after
the directories above have been made. What was done stays done when a later step fails. -/
def writeWhole (d : Disk) (path : String) (text : Except Failure String) :
    Disk × Except Failure Unit :=
  match makeDirs (Path.names path).length d (Path.parent path) with
  | (d, .error e) => (d, .error e)
  | (d, .ok ()) =>
    if Path.lastName path = "" then (d, .error (.emptyName path))
    else
      match d.write (draftPath path) (.text (text.toOption.getD "")) with
      | (d, .error e) => (d, .error e)
      | (d, .ok ()) =>
        match text with
        -- The draft stays behind.
        | .error e => (d, .error e)
        | .ok _ => d.move (draftPath path) path

def storeSnapshot (d : Disk) (path : String) (s : Snapshot) : Disk × Except Failure Unit :=
  d.writeWhole path s.text

end LiveIndex.Disk
