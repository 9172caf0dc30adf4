import LiveIndex.Proofs.Disk.Reach

/-! What stands at each place of a tree. A change at one place leaves all others alone, and a path
leads on to where it has led as long as the directories and links of the tree stay. -/

namespace LiveIndex

/-- What stands at a place, without what a directory holds. -/
inductive Item
  | file (content : Content)
  | link (target : String)
  | directory
  deriving DecidableEq

namespace Tree

def item : Tree → Item
  | file content => .file content
  | link target => .link target
  | dir _ => .directory

/-- What stands at the end of a list of names, links not followed. -/
def at? (t : Tree) (names : List String) : Option Item :=
  (t.get? names).map item

variable {t t' u new : Tree} {dir names : List String} {name : String}

/-- Something without children, at whose place nothing else stands than itself. -/
def Bare (t : Tree) : Prop :=
  ∀ n, t.child? n = none

theorem Bare.get? (h : t.Bare) (n : String) (rest : List String) : t.get? (n :: rest) = none := by
  rw [Tree.get?, h n]
  rfl

/-- All directories and links of a tree are there in another one. -/
def Keeps (t t' : Tree) : Prop :=
  ∀ names, (t.at? names = some .directory ∨ ∃ target, t.at? names = some (.link target)) →
    t'.at? names = t.at? names

theorem Keeps.directory (h : Keeps t t') (hdir : t.at? names = some .directory) :
    t'.at? names = some .directory :=
  (h names (.inl hdir)).trans hdir

theorem Keeps.trans {t'' : Tree} (h : Keeps t t') (h' : Keeps t' t'') : Keeps t t'' := by
  intro names hstays
  have hsame := h names hstays
  rw [← hsame] at hstays
  exact (h' names hstays).trans hsame

end Tree

end LiveIndex
