import LiveIndex.Disk.Stat
import LiveIndex.Store.OrderedMap

/-! What is to be indexed below a root. The walk and the notices of a watch use the same filter.
-/

namespace LiveIndex

/-- What is indexed: the extensions of files and links, all if none are given, and the names of
directories whose contents are left out at any depth. -/
structure Filter where
  extensions : Option (List String)
  excluded : List String
  deriving DecidableEq, Repr

namespace Filter

/-- Whether the extension of a path is wanted. -/
def wantsExtension (f : Filter) (path : String) : Bool :=
  match f.extensions with
  | none => true
  | some wanted => Path.extension path ∈ wanted

/-- Whether a name on a relative path is excluded. -/
def excludes (f : Filter) (relativePath : String) : Bool :=
  (Text.split '/' relativePath).any (· ∈ f.excluded)

end Filter

namespace Disk

def sortByName {α : Type} (items : List (String × α)) : List (String × α) :=
  items.mergeSort fun a b => a.1 ≤ b.1

/-- What is looked at in one directory: the subdirectories that are not excluded, links to
directories among them, then all else; each in the order of names. Directories are taken if they
are wanted, everything else by its extension. -/
def levelPaths (d : Disk) (f : Filter) (directories : Bool) (dir : String)
    (children : List (String × Tree)) : List String :=
  let named := (sortByName children).map fun c => (c.1, Path.join dir c.1, c.2)
  -- A link to a directory stands among the directories but is judged like a file.
  let isDir (path : String) (t : Tree) : Bool := t.isDir || (t.isLink && d.isDir path)
  let subdirs := named.filter fun c => isDir c.2.1 c.2.2 && c.1 ∉ f.excluded
  let others := named.filter fun c => !isDir c.2.1 c.2.2
  let wanted (c : String × String × Tree) : Bool :=
    if c.2.2.isDir then directories else f.wantsExtension c.2.1
  ((subdirs ++ others).filter wanted).map fun c => c.2.1

mutual

/-- The paths of a tree that are to be indexed: those of a directory before those of its
subdirectories. Links are not followed, and directories that cannot be listed are passed over. -/
def treePaths (d : Disk) (f : Filter) (directories : Bool) (dir : String) : Tree → List String
  | .dir children =>
    if (d.markOf dir).unreadable then []
    else
      d.levelPaths f directories dir children ++
        (sortByName (childPaths d f directories dir children)).flatMap Prod.snd
  | _ => []

/-- The paths below each child, with the child's name. -/
def childPaths (d : Disk) (f : Filter) (directories : Bool) (dir : String) :
    List (String × Tree) → List (String × List String)
  | [] => []
  | (name, t) :: rest =>
    let below :=
      if name ∈ f.excluded then [] else treePaths d f directories (Path.join dir name) t
    (name, below) :: childPaths d f directories dir rest

end

/-- The paths below a root that are to be indexed. -/
def walk (d : Disk) (f : Filter) (directories : Bool) (root : String) : List String :=
  match d.find root with
  | .ok t => d.treePaths f directories root t
  | .error _ => []

/-- The entries of paths. Paths that have vanished or cannot be read are passed over; a time that is
no calendar time ends the scan. -/
def entriesOf (d : Disk) (root : String) : List String → Except Failure (List Entry)
  | [] => .ok []
  | path :: rest =>
    match d.entry path root with
    | .ok e => (d.entriesOf root rest).map (e :: ·)
    | .error failure =>
      if failure.family = .system then d.entriesOf root rest else .error failure

/-- The indexable entries below a root. -/
def scan (d : Disk) (f : Filter) (directories : Bool) (root : String) :
    Except Failure (List Entry) :=
  d.entriesOf root (d.walk f directories root)

/-- The indexable entries below a root by path. -/
def inventory (d : Disk) (f : Filter) (root : String) : Except Failure (OrderedMap String Entry) :=
  (d.scan f true root).map fun entries => .ofList (entries.map fun e => (e.path, e))

/-- The tidy absolute path of a content root that can be listed. -/
def contentRoot (d : Disk) (home root : String) : Except Failure String := do
  let expanded ← Path.expandHome home root
  let root ← d.resolve expanded
  match d.find root with
  | .error _ => throw (.rootMissing root)
  | .ok (.dir _) => if (d.markOf root).unreadable then throw (.rootLocked root) else return root
  | .ok _ => throw (.rootNotDirectory root)

end Disk

end LiveIndex
