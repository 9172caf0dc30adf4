import LiveIndex.Proofs.Index.Lasting
import LiveIndex.Proofs.Index.Searchable
import Mathlib.Data.List.Infix

/-! What is told of a change, and what comes of it when it is made to a copy of the entries. The
changes of a batch and those of a removal lead from the entries before to the entries after, one
step at a time. -/

namespace LiveIndex

namespace Notice

/-- Makes a change to a map. One that would have to bring an entry and does not is passed over. -/
def follow (m : OrderedMap String Entry) (n : Notice) : OrderedMap String Entry :=
  match n.kind, n.entry with
  | .remove, _ => m.erase n.path
  | _, some e => m.insert n.path e
  | _, none => m

/-- Makes changes one after another. -/
def followAll (m : OrderedMap String Entry) (changes : List Notice) : OrderedMap String Entry :=
  changes.foldl follow m

/-- Of changes that are made one after another, those are additions whose path is not there when
their turn comes, and no others. -/
def AddWhatIsNew : OrderedMap String Entry → List Notice → Prop
  | _, [] => True
  | m, n :: rest => (n.kind = .add ↔ m.get? n.path = none) ∧ AddWhatIsNew (follow m n) rest

/-- What is told of a path that is gone. -/
def removal (path : String) : Notice :=
  ⟨.remove, path, none⟩

/-- What is told of an entry that is to be stored where another one is, or none. -/
def ofStored (found : Option Entry) (e : Entry) : List Notice :=
  match found with
  | none => [⟨.add, e.path, some e⟩]
  | some old => if old.same e then [] else [⟨.change, e.path, some e⟩]

variable {m : OrderedMap String Entry}

theorem followAll_append (m : OrderedMap String Entry) (first last : List Notice) :
    followAll m (first ++ last) = followAll (followAll m first) last :=
  List.foldl_append ..

theorem AddWhatIsNew.append {first last : List Notice} (hfirst : AddWhatIsNew m first)
    (hlast : AddWhatIsNew (followAll m first) last) : AddWhatIsNew m (first ++ last) := by
  induction first generalizing m with
  | nil => exact hlast
  | cons n rest ih => exact ⟨hfirst.1, ih hfirst.2 hlast⟩

theorem followAll_removals (m : OrderedMap String Entry) (paths : List String) :
    followAll m (paths.map removal) = m.filter fun p _ => decide (p ∉ paths) := by
  rw [followAll, List.foldl_map]
  have herased := m.foldl_erase id paths
  rw [List.map_id] at herased
  exact herased

end Notice

namespace Index

variable {s : Index} {a : Action}

/-- What is told of an upsert. -/
theorem change?_upsert (s : Index) (e : Entry) :
    ((s.upsert e).2.change? e).toList = Notice.ofStored (s.entries.get? e.path) e := by
  unfold upsert Notice.ofStored
  cases s.entries.get? e.path with
  | none => rfl
  | some old =>
    dsimp only
    split <;> rfl

theorem followAll_upsert (s : Index) (e : Entry) :
    Notice.followAll s.entries (Notice.ofStored (s.entries.get? e.path) e) =
      (s.upsert e).1.entries := by
  unfold upsert Notice.ofStored
  cases s.entries.get? e.path with
  | none => rfl
  | some old =>
    dsimp only
    split <;> rfl

/-- What is told of a batch is what is told of its entries, one after another. -/
theorem told_upsertAll_cons (s : Index) (e : Entry) (rest : List Entry) :
    (s.upsertAll (e :: rest)).2.2 =
      Notice.ofStored (s.entries.get? e.path) e ++ ((s.upsert e).1.upsertAll rest).2.2 := by
  rw [← change?_upsert]
  rfl

theorem followAll_upsertAll (s : Index) (entries : List Entry) :
    Notice.followAll s.entries (s.upsertAll entries).2.2 = (s.upsertAll entries).1.entries := by
  induction entries generalizing s with
  | nil => rfl
  | cons e rest ih =>
    rw [told_upsertAll_cons, Notice.followAll_append, followAll_upsert, ih, upsertAll_cons]

theorem removed_eq_family (s : Index) (path : String) :
    (s.removeFamily path).2 = s.family path := by
  unfold removeFamily family
  cases s.entries.get? path with
  | none => rfl
  | some e => rfl

theorem followAll_removeFamily (hs : s.Consistent) (path : String) :
    Notice.followAll s.entries
        (((s.removeFamily path).2.map Entry.path).map Notice.removal) =
      (s.removeFamily path).1.entries := by
  rw [Notice.followAll_removals, entries_removeFamily, removed_eq_family]
  apply OrderedMap.ext_items
  refine List.filter_congr fun kv hkv => ?_
  have hfamily : kv.1 ∈ (s.family path).map Entry.path ↔ s.Takes path kv.1 :=
    mem_paths_family hs (OrderedMap.get?_of_mem hkv)
  rw [Bool.eq_iff_iff]
  simp [hfamily]

theorem of_get?_beneath {path p : String} {x : Entry}
    (h : ((s.entries.erase path).filter fun p _ => Path.isBeneath path p).get? p = some x) :
    s.entries.get? p = some x ∧ p ≠ path := by
  rw [OrderedMap.get?_filter, Option.filter_eq_some_iff, OrderedMap.get?_erase] at h
  obtain ⟨hfound, -⟩ := h
  split at hfound
  · cases hfound
  · next hne => exact ⟨hfound, Ne.symm hne⟩

theorem nodup_paths_family (hs : s.Consistent) (path : String) :
    ((s.family path).map Entry.path).Nodup := by
  unfold family
  cases he : s.entries.get? path with
  | none => exact List.nodup_nil
  | some e =>
    dsimp only
    split
    · refine List.nodup_cons.mpr ⟨?_, OrderedMap.nodup_map_values fun p x hx =>
        hs.keyed p x (of_get?_beneath hx).1⟩
      -- The path itself is not beneath itself.
      intro hmem
      obtain ⟨x, hx, hpath⟩ := List.mem_map.mp hmem
      obtain ⟨p, hp⟩ := OrderedMap.mem_values_iff.mp hx
      obtain ⟨hfound, hne⟩ := of_get?_beneath hp
      apply hne
      calc p = x.path := (hs.keyed p x hfound).symm
        _ = e.path := hpath
        _ = path := hs.keyed path e he
    · exact List.nodup_singleton _

theorem get?_of_mem_family (hs : s.Consistent) {path : String} {x : Entry}
    (hx : x ∈ s.family path) : s.entries.get? x.path = some x := by
  unfold family at hx
  cases he : s.entries.get? path with
  | none =>
    rw [he] at hx
    exact absurd hx List.not_mem_nil
  | some e =>
    have hown : s.entries.get? e.path = some e := by rw [hs.keyed path e he, he]
    rw [he] at hx
    dsimp only at hx
    split at hx
    · rcases List.mem_cons.mp hx with rfl | hx
      · exact hown
      · obtain ⟨p, hp⟩ := OrderedMap.mem_values_iff.mp hx
        obtain ⟨hfound, -⟩ := of_get?_beneath hp
        rw [hs.keyed p x hfound, hfound]
    · rw [List.mem_singleton.mp hx]
      exact hown

/-- What is told of an action. -/
def changes (s : Index) : Action → List Notice
  | .begin _ (.batch entries) => (s.upsertAll entries).2.2
  | .begin _ (.remove path) => ((s.removeFamily path).2.map Entry.path).map Notice.removal
  | .add _ _ e => Notice.ofStored (s.entries.get? e.path) e
  | _ => []

/-- The entries that an action upserts. -/
def Action.upserts : Action → List Entry
  | .begin _ (.batch entries) => entries
  | .add _ _ e => [e]
  | _ => []

/-- Whether an action is one whose changes of the entries listeners are told of, and leaves the
listeners as they are. -/
def Action.isTold : Action → Bool
  | .clear _ | .listen _ | .unlisten _ => false
  | a => a.isLasting

theorem Action.isLasting_of_isTold {a : Action} (h : a.isTold = true) : a.isLasting = true := by
  cases a with
  | clear now => rfl
  | listen l => rfl
  | unlisten l => rfl
  | _ => exact h

/-- Whoever follows what is told of an action has the entries after it. -/
theorem followAll_changes (hs : s.Consistent) (ha : a.isTold = true) :
    Notice.followAll s.entries (s.changes a) = s.entriesAfter a := by
  cases a with
  | begin now call =>
    cases call with
    | batch entries => exact followAll_upsertAll s entries
    | remove path => exact followAll_removeFamily hs path
    | _ => rfl
  | add now timed e => exact followAll_upsert s e
  | clear now => cases ha
  | _ => rfl

end Index

end LiveIndex
