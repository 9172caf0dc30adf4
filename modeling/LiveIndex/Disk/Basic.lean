import LiveIndex.Disk.Tree

/-! Operations on a file system and how they fail. Metadata goes by the spelling of a path, and
everything else by the place in the tree that the path leads to. -/

namespace LiveIndex

/-- A tidy path whose first name, if that is a tilde, is replaced by a home directory. -/
def Path.expandHome (home p : String) : Except Failure String :=
  match isAbsolute p, names p with
  | false, name :: rest =>
    if name = "~" then .ok (build (anchor home) (names home ++ rest))
    else if Text.startsWith name "~" then .error .noHome
    else .ok (tidy p)
  | _, _ => .ok (tidy p)

/-- Why the metadata of a path cannot be read. -/
inductive StatFault
  | vanished
  | denied
  deriving DecidableEq, Repr

/-- What is known of a path besides the tree: its times in seconds, and whether reading its
metadata or listing it fails. -/
structure Mark where
  modified : Rat
  changed : Rat
  statFault : Option StatFault
  unreadable : Bool
  deriving DecidableEq, Repr

/-- The mark of a path that nothing is known of. -/
def Mark.plain : Mark :=
  ⟨1700000000, 1700000000, none, false⟩

/-- A file system: a tree, and marks by the literal spelling of paths. -/
structure Disk where
  tree : Tree
  marks : List (String × Mark)

namespace Disk

/-- The failure of an access to a path. -/
def failure (path : String) : Tree.Dead → Failure
  | .missing => .noSuchFile path
  | .notDirectory => .notDirectory path
  | .tooManyLinks => .tooManyLinks path

def markOf (d : Disk) (path : String) : Mark :=
  ((d.marks.find? (·.1 = path)).map Prod.snd).getD .plain

/-- What a path leads to, links followed. -/
def find (d : Disk) (path : String) : Except Failure Tree :=
  match d.tree.find true path with
  | .ok (_, t) => .ok t
  | .error e => .error (failure path e)

/-- What stands at a path itself. -/
def peek (d : Disk) (path : String) : Except Failure Tree :=
  match d.tree.find false path with
  | .ok (_, t) => .ok t
  | .error e => .error (failure path e)

def exists? (d : Disk) (path : String) : Bool :=
  (d.find path).toBool

/-- Whether anything stands at a path, a link that leads nowhere included. -/
def stands (d : Disk) (path : String) : Bool :=
  (d.peek path).toBool

def isDir (d : Disk) (path : String) : Bool :=
  match d.find path with
  | .ok t => t.isDir
  | .error _ => false

def isLink (d : Disk) (path : String) : Bool :=
  match d.peek path with
  | .ok t => t.isLink
  | .error _ => false

/-- The children of a directory. -/
def list (d : Disk) (path : String) : Except Failure (List (String × Tree)) :=
  if (d.markOf path).unreadable then .error (.accessDenied path)
  else
    match d.find path with
    | .ok (.dir children) => .ok children
    | .ok _ => .error (.notDirectory path)
    | .error e => .error e

def read (d : Disk) (path : String) : Except Failure Content :=
  match d.find path with
  | .ok (.file content) => .ok content
  | .ok _ => .error (.isDirectory path)
  | .error e => .error e

/-- Where the last name of a path really is: the names of its directory, and the name itself, links
at the end followed. -/
def target (d : Disk) : Nat → List String → List String → Except Tree.Dead (List String × String)
  | 0, _, _ => .error .tooManyLinks
  | links + 1, here, parts =>
    match d.tree.locate true Tree.maxLinks here parts.dropLast with
    | .error e => .error e
    | .ok (dir, t) =>
      let name := parts.getLastD ""
      if !t.isDir then .error .notDirectory
      else
        match t.child? name with
        | some (.link dest) =>
          d.target links (if Path.isAbsolute dest then [] else dir.reverse) (Text.split '/' dest)
        | _ => .ok (dir, name)

/-- Writes a file, through a link if one stands there. -/
def write (d : Disk) (path : String) (content : Content) : Disk × Except Failure Unit :=
  match d.target Tree.maxLinks [] (Text.split '/' path) with
  | .error e => (d, .error (failure path e))
  | .ok (dir, name) =>
    match d.tree.get? (dir ++ [name]) with
    | some (.dir _) => (d, .error (.isDirectory path))
    | _ =>
      if name = "" ∨ name = "." ∨ name = ".." then (d, .error (.isDirectory path))
      else ({ d with tree := d.tree.set (dir ++ [name]) (.file content) }, .ok ())

def makeDir (d : Disk) (path : String) : Disk × Except Failure Unit :=
  if d.stands path then (d, .error (.alreadyThere path))
  else
    match d.find (Path.parent path) with
    | .ok (.dir _) =>
      match d.tree.find true (Path.parent path) with
      | .ok (dir, _) =>
        ({ d with tree := d.tree.set (dir ++ [Path.lastName path]) (.dir []) }, .ok ())
      | .error e => (d, .error (failure path e))
    | .ok _ => (d, .error (.notDirectory path))
    | .error (.notDirectory _) => (d, .error (.notDirectory path))
    | .error (.tooManyLinks _) => (d, .error (.tooManyLinks path))
    | .error _ => (d, .error (.noSuchFile path))

/-- Makes a directory unless it is there. -/
def ensureDir (d : Disk) (path : String) : Disk × Except Failure Unit :=
  match d.makeDir path with
  | (d', .error e) => if d.isDir path then (d, .ok ()) else (d', .error e)
  | r => r

/-- Makes a directory and those above it, as far as they are missing. What was made stays when a
later step fails. The fuel bounds the number of names. -/
def makeDirs : Nat → Disk → String → Disk × Except Failure Unit
  | 0, d, path => d.ensureDir path
  | fuel + 1, d, path =>
    match d.makeDir path with
    | (d', .ok ()) => (d', .ok ())
    | (_, .error (.noSuchFile p)) =>
      if Path.parent path = path then (d, .error (.noSuchFile p))
      else
        match makeDirs fuel d (Path.parent path) with
        | (d', .ok ()) => d'.ensureDir path
        | r => r
    | (_, .error e) => if d.isDir path then (d, .ok ()) else (d, .error e)

/-- The failure of a move to a place that has no name of its own. -/
def busy (source path : String) : Failure :=
  .device (Failure.systemText 16 "Device or resource busy" source ++ " -> " ++ Text.quoted path)

/-- Moves a file over another path. A directory is not moved onto a file, nor anything else onto a
directory. -/
def move (d : Disk) (source path : String) : Disk × Except Failure Unit :=
  match d.tree.find false source with
  | .error e => (d, .error (failure source e))
  | .ok (sourceNames, t) =>
    match d.tree.find true (Path.parent path) with
    | .error e => (d, .error (failure path e))
    | .ok (dir, _) =>
      let names := dir ++ [Path.lastName path]
      if Path.lastName path = ".." then (d, .error (busy source path))
      else
        match d.tree.get? names with
        | some (.dir _) => (d, .error (.moveOntoDirectory source path))
        -- A link at the target is replaced, not followed.
        | _ => ({ d with tree := (d.tree.remove sourceNames).set names t }, .ok ())

/-- Forgets the marks of a path and of all beneath it. -/
def forget (d : Disk) (path : String) : Disk :=
  { d with marks := d.marks.filter fun m => m.1 ≠ path && !Path.isBeneath path m.1 }

/-- Takes away what stands at a path with everything beneath. -/
def remove (d : Disk) (path : String) : Disk :=
  match d.tree.find false path with
  | .ok (names, _) => { d.forget path with tree := d.tree.remove names }
  | .error _ => d.forget path

def mark (d : Disk) (path : String) (m : Mark) : Disk :=
  { d with marks := (path, m) :: d.marks.filter (·.1 ≠ path) }

/-- Puts something at a path, making the directories above. A directory that is there keeps what
it holds. -/
def put (d : Disk) (path : String) (t : Tree) : Disk :=
  let parts := Path.names path
  let dir :=
    match d.tree.find true (Path.parent path) with
    | .ok (dir, _) => dir
    | .error _ => parts.dropLast
  let names := dir ++ [parts.getLastD ""]
  match t, d.tree.get? names with
  | .dir [], some (.dir _) => d
  | _, _ => { d with tree := d.tree.set names t }

/-- A part of a path that is being resolved, or the end of a link that was followed. -/
inductive Step
  | part (name : String)
  | leave

def steps (path : String) : List Step :=
  (Path.names path).map .part

/-- The names of the parts among steps. -/
def stepNames (steps : List Step) : List String :=
  steps.filterMap fun
    | .part name => some name
    | .leave => none

/-- Follows all links on a path; what does not exist is kept as it is. A link that is met while it
is being followed is a loop: it is kept too, and what comes after it is only spelled shorter. -/
def resolveFrom (d : Disk) : Nat → List String → List (List String) → List Step → List String
  | 0, here, _, rest => here.reverse ++ stepNames rest
  | _, here, _, [] => here.reverse
  | fuel + 1, here, followed, .leave :: rest => d.resolveFrom fuel here followed.tail rest
  | fuel + 1, here, followed, .part name :: rest =>
    if name = ".." then d.resolveFrom fuel here.tail followed rest
    else
      let path := (name :: here).reverse
      match d.tree.get? path with
      | some (.link dest) =>
        if path ∈ followed then Path.dropParents true [] (path ++ stepNames rest)
        else
          d.resolveFrom fuel (if Path.isAbsolute dest then [] else here) (path :: followed)
            (steps dest ++ .leave :: rest)
      | _ => d.resolveFrom fuel (name :: here) followed rest

/-- The real spelling of a path, absolute and without links, unless these go in circles. -/
def resolve (d : Disk) (path : String) : Except Failure String :=
  let real := Path.build "/" (d.resolveFrom 10000 [] [] (steps path))
  match d.find real with
  | .error (.tooManyLinks _) => .error (.linkLoop real)
  | _ => .ok real

end Disk

end LiveIndex
