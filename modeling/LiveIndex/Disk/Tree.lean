import LiveIndex.Failure
import LiveIndex.Path

/-! A tree of files, links and directories. Looking up a path follows links one at a time with a
bound on their number, so that it ends on every tree. -/

namespace LiveIndex

/-- What a file holds: a text, other bytes, or so many bytes that nobody looks at. -/
inductive Content
  | text (s : String)
  | bytes (bs : List UInt8)
  | filler (size : Nat)
  deriving DecidableEq

namespace Content

def size : Content → Nat
  | text s => s.utf8ByteSize
  | bytes bs => bs.length
  | filler n => n

/-- The text of a file, if its bytes are one. -/
def text? : Content → Option String
  | text s => some s
  | bytes bs => String.fromUTF8? ⟨bs.toArray⟩
  | filler n => some (String.ofList (List.replicate n '\u0000'))

end Content

/-- A file, a link, or a directory with everything in it. -/
inductive Tree
  | file (content : Content)
  | link (target : String)
  | dir (children : List (String × Tree))

namespace Tree

instance : Inhabited Tree :=
  ⟨dir []⟩

def isDir : Tree → Bool
  | dir _ => true
  | _ => false

def isLink : Tree → Bool
  | link _ => true
  | _ => false

/-- The child of a directory with a given name. -/
def child? (name : String) : Tree → Option Tree
  | dir children => (children.find? (·.1 = name)).map Prod.snd
  | _ => none

/-- What stands at the end of a list of names, links not followed. -/
def get? : List String → Tree → Option Tree
  | [], t => some t
  | name :: rest, t => (t.child? name).bind (get? rest)

/-- Sets a child among others. -/
def setChild (name : String) (t : Tree) : List (String × Tree) → List (String × Tree)
  | [] => [(name, t)]
  | c :: rest => if c.1 = name then (name, t) :: rest else c :: setChild name t rest

/-- Puts something at the end of a list of names. Missing directories on the way are made, files
on the way give way to them. -/
def set : List String → Tree → Tree → Tree
  | [], _, new => new
  | name :: rest, t, new =>
    let children := match t with
      | dir children => children
      | _ => []
    let old := ((children.find? (·.1 = name)).map Prod.snd).getD (dir [])
    dir (setChild name (set rest old new) children)

/-- Takes away what stands at the end of a list of names. -/
def remove : List String → Tree → Tree
  | [], t => t
  | [name], dir children => dir (children.filter (·.1 ≠ name))
  | name :: rest, dir children =>
    match children.find? (·.1 = name) with
    | some (_, t) => dir (setChild name (remove rest t) children)
    | none => dir children
  | _, t => t

/-- Why a path leads nowhere. -/
inductive Dead
  | missing
  | notDirectory
  | tooManyLinks
  deriving DecidableEq, Repr

/-- Follows the parts of a path from a directory whose names are given in reverse. Links on the
way are followed, the last part only if `follow` is set. -/
def locate (root : Tree) (follow : Bool) (links : Nat) (here : List String) (parts : List String) :
    Except Dead (List String × Tree) :=
  match parts with
  | [] =>
    match root.get? here.reverse with
    | some t => .ok (here.reverse, t)
    | none => .error .missing
  | part :: rest =>
    match root.get? here.reverse with
    | none => .error .missing
    | some t =>
      if !t.isDir then .error .notDirectory
      else if part = "" ∨ part = "." then locate root follow links here rest
      else if part = ".." then locate root follow links here.tail rest
      else
        match t.child? part with
        | none => .error .missing
        | some (link target) =>
          if rest.isEmpty && !follow then .ok ((part :: here).reverse, link target)
          else
            match links with
            | 0 => .error .tooManyLinks
            | links + 1 =>
              locate root follow links (if Path.isAbsolute target then [] else here)
                (Text.split '/' target ++ rest)
        | some _ => locate root follow links (part :: here) rest
termination_by (links, parts.length)

/-- The number of links that are followed on one way. -/
def maxLinks : Nat := 40

/-- What a path leads to. Relative paths start at the root. -/
def find (root : Tree) (follow : Bool) (path : String) : Except Dead (List String × Tree) :=
  if path = "" then .error .missing
  else locate root follow maxLinks [] (Text.split '/' path)

end Tree

end LiveIndex
