import LiveIndex.Disk.Basic
import LiveIndex.Text.Order

namespace LiveIndex

inductive SightingKind
  | added
  | modified
  | deleted
  | other (word : String)
  deriving DecidableEq, Repr

namespace SightingKind

def word : SightingKind → String
  | added => "added"
  | modified => "modified"
  | deleted => "deleted"
  | other word => word

def ofWord : String → SightingKind
  | "added" => added
  | "modified" => modified
  | "deleted" => deleted
  | word => other word

end SightingKind

structure Sighting where
  kind : SightingKind
  path : String
  deriving DecidableEq, Repr

namespace Sighting

/-- The one kind that stands for the kinds reported of a path. Where several were reported, what is
on disk decides. -/
def settleKind (d : Disk) (path : String) (kinds : List SightingKind) : SightingKind :=
  match kinds with
  | [] => .modified
  | kind :: rest =>
    if rest.all (· = kind) then kind
    else if d.stands path then (if .added ∈ kinds then .added else .modified)
    else .deleted

/-- One change for every path of an unordered batch, in the order of paths. -/
def condense (d : Disk) (changes : List Sighting) : List Sighting :=
  let paths := Text.sorted (changes.map Sighting.path).eraseDups
  paths.map fun path =>
    ⟨settleKind d path ((changes.filter (·.path = path)).map Sighting.kind), path⟩

end Sighting

end LiveIndex
