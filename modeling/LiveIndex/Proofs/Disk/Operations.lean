import LiveIndex.Proofs.Disk.Places
import LiveIndex.Proofs.Path.Parent

/-! What the operations of a disk change. Making a directory, writing a file and moving one each
fail and change nothing, or change the places that they are about and no others. -/

namespace LiveIndex

namespace Disk

open Path (IsTidy GoesOn parent lastName)

variable {d d' : Disk} {but but' : List String → Prop} {q x name : String}
  {dir names : List String}

/-- Two disks on which the same stands at all places but some. -/
structure Agree (but : List String → Prop) (d d' : Disk) : Prop where
  marks : d'.marks = d.marks
  places : ∀ names, ¬but names → d'.tree.at? names = d.tree.at? names

theorem Agree.refl (but : List String → Prop) (d : Disk) : Agree but d d :=
  ⟨rfl, fun _ _ => rfl⟩

theorem Agree.mono (h : Agree but d d') (hbut : ∀ names, but names → but' names) :
    Agree but' d d' :=
  ⟨h.marks, fun names hnames => h.places names fun hn => hnames (hbut names hn)⟩

theorem Agree.trans {d'' : Disk} (h : Agree but d d') (h' : Agree but d' d'') :
    Agree but d d'' :=
  ⟨h'.marks.trans h.marks, fun names hnames =>
    (h'.places names hnames).trans (h.places names hnames)⟩

section Lookup

variable {above : String} {children : List (String × Tree)}

end Lookup

section Target

variable {links : Nat} {here parts : List String}

end Target

end Disk

end LiveIndex
