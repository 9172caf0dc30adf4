import LiveIndex.Proofs.Index.Alone
import LiveIndex.Proofs.Index.Waiting
import LiveIndex.Proofs.Snapshot.Faults
import LiveIndex.Proofs.Snapshot.Reopening

/-! Binding an index to a place, in whatever state the index is. A stored index that can be read
takes the place of all entries. Without one the call ends as well and the entries stay what they
are; only an infinite number in the place of an integer makes it fail. -/

namespace LiveIndex

/-- What opening a file can fail with: the system refuses, or the path itself is not one. -/
def Failure.OfOpening (f : Failure) : Prop :=
  f.family = .system ∨ f.family = .value

theorem Disk.fails_find (d : Disk) (path : String) : Fails (·.family = .system) (d.find path) := by
  unfold find
  split
  · exact .ok _
  · next e _ => cases e <;> exact .error rfl

theorem Disk.fails_read (d : Disk) (path : String) : Fails Failure.OfOpening (d.read path) := by
  unfold read
  split
  · exact .ok _
  · exact .error (.inl rfl)
  · next e he => exact .error (.inl (d.fails_find path e he))

namespace Index

namespace Session

/-- A stored index that names one path twice and counts neither. -/
def twice : Snapshot :=
  ⟨[oldEntry "/r/b" "b" "b" .directory, oldEntry "/r/b" "b" "b" .file], .zero 0, 7, 0⟩

end Session

end Index

end LiveIndex
