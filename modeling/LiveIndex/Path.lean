import LiveIndex.Text.Casing
import LiveIndex.Text.Split

/-! Paths are texts. Most of the program compares them by their spelling; the names between the
slashes count where files are looked up and where one path is seen from another. -/

namespace LiveIndex.Path

/-- The names on a path: the parts between slashes that are neither empty nor a single dot. -/
def names (p : String) : List String :=
  (Text.split '/' p).filter fun s => s ≠ "" && s ≠ "."

def isAbsolute (p : String) : Bool :=
  p.toList.head? = some '/'

/-- The slashes that a path keeps at its front: none, one, or two if there are exactly two. -/
def anchor (p : String) : String :=
  match p.toList with
  | '/' :: '/' :: '/' :: _ => "/"
  | '/' :: '/' :: _ => "//"
  | '/' :: _ => "/"
  | _ => ""

/-- Joins an anchor and names. Nothing at all is written as a dot. -/
def build (anchor : String) (names : List String) : String :=
  let p := anchor ++ "/".intercalate names
  if p = "" then "." else p

/-- A path with single slashes and without single dots; parents are left alone. -/
def tidy (p : String) : String :=
  build (anchor p) (names p)

/-- Takes parents away together with the names before them. At the front of a path that is not
absolute they have to stay. -/
def dropParents (absolute : Bool) (before : List String) : List String → List String
  | [] => before.reverse
  | name :: rest =>
    if name ≠ ".." then dropParents absolute (name :: before) rest
    else
      match before with
      | [] => if absolute then dropParents absolute [] rest else dropParents absolute [".."] rest
      | b :: bs =>
        if b = ".." then dropParents absolute (".." :: before) rest
        else dropParents absolute bs rest

/-- A path in its shortest spelling, as far as names tell. -/
def normal (p : String) : String :=
  build (anchor p) (dropParents (isAbsolute p) [] (names p))

/-- A path below another one; an absolute path stands for itself. -/
def join (base p : String) : String :=
  if isAbsolute p then p
  else if base = "" ∨ base.toList.getLast? = some '/' then base ++ p
  else base ++ "/" ++ p

/-- The names on the shortest absolute spelling of a path; relative paths start at the root. -/
def absoluteNames (p : String) : List String :=
  names (normal (join "/" p))

/-- Splits off the longest common beginning of two lists. -/
def dropCommon : List String → List String → List String × List String
  | a :: as, b :: bs => if a = b then dropCommon as bs else (a :: as, b :: bs)
  | as, bs => (as, bs)

/-- The way from a directory to a path: up to the common ancestor and down again. -/
def relativeNames (p start : String) : List String :=
  let (down, up) := dropCommon (absoluteNames p) (absoluteNames start)
  up.map (fun _ => "..") ++ down

/-- A path as seen from a directory. There is none for an empty path. -/
def relative? (p start : String) : Option String :=
  if p = "" then none else some (build "" (relativeNames p start))

/-- What follows the last slash. -/
def afterSlash (p : String) : String :=
  (Text.split '/' p).getLastD ""

/-- The last name on a path, slashes at its end aside; a path of nothing but slashes is its own
name. -/
def baseName (p : String) : String :=
  let name := afterSlash (Text.dropEnd '/' p)
  if name = "" then p else name

/-- The last name on the tidy form of a path. -/
def lastName (p : String) : String :=
  (names p).getLastD ""

/-- The end of a name from its last dot on, unless the dot is its first or last character. -/
def suffixOf (name : List Char) : List Char :=
  let tail := (name.reverse.takeWhile (· ≠ '.')).reverse
  if tail.length + 1 < name.length ∧ tail ≠ [] then '.' :: tail else []

/-- The suffix of the last name on a path, with its dot. -/
def suffix (p : String) : String :=
  String.ofList (suffixOf (lastName p).toList)

/-- The suffix of a path in lower case. -/
def extension (p : String) : String :=
  Text.lower (suffix p)

/-- The tidy path without its last name. -/
def parent (p : String) : String :=
  build (anchor p) (names p).dropLast

/-- A tidy path below another one. -/
def tidyJoin (base p : String) : String :=
  tidy (join (tidy base) p)

/-- The start of all paths beneath a directory. -/
def beneath (dir : String) : String :=
  Text.dropEnd '/' dir ++ "/"

/-- Whether a path starts like the paths beneath a directory. -/
def isBeneath (dir p : String) : Bool :=
  Text.startsWith p (beneath dir)

end LiveIndex.Path
