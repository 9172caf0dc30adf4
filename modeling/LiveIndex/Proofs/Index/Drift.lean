import LiveIndex.Proofs.Index.Edits

/-! The counters never drift. Whatever an index does on its own or under a schedule, entries and
counters stay in step. -/

namespace LiveIndex.Index

/-- Every edit keeps entries and counters in step. -/
theorem Consistent.edit {s t : Index} (h : s.Consistent) (he : Edit s t) : t.Consistent := by
  cases he with
  | aside same => exact h.of_same same.toSameContent
  | stored e => exact consistent_store h e
  | removed path => exact consistent_removeFamily h path
  | cleared now => exact consistent_clear s now
  | adopted snapshot => exact consistent_adopt s snapshot
  | dropped => exact consistent_dropState s
  | renewed => exact h.of_same ⟨rfl, rfl⟩
  | consulted => exact h.of_same ⟨rfl, rfl⟩

theorem Consistent.edits {s t : Index} (h : s.Consistent) (he : Edits s t) : t.Consistent := by
  induction he with
  | refl => exact h
  | tail _ last ih => exact ih.edit last

theorem search_index (s : Index) (text : String) (exact : Bool) (limit : Option Int) :
    ∃ finder, (s.search text exact limit).1 = { s with finder } := by
  unfold search
  dsimp only
  split
  · exact ⟨s.finder, rfl⟩
  · split
    · exact ⟨s.finder, rfl⟩
    · exact ⟨_, rfl⟩

theorem query_index (s : Index) (text : String) (limit : Option Int) :
    ∃ finder, (s.query text limit).1 = { s with finder } := by
  unfold query
  dsimp only
  split
  · exact ⟨s.finder, rfl⟩
  · split
    · exact search_index ..
    · exact ⟨_, rfl⟩

namespace Session

/-- Whatever happens next, entries and counters stay in step. -/
theorem consistent_step {s : Session} (h : s.index.Consistent) (a : Action) :
    (s.step a).index.Consistent :=
  h.edits (s.step_edits a)

theorem consistent_run {s : Session} (h : s.index.Consistent) (actions : List Action) :
    (s.run actions).index.Consistent :=
  h.edits (s.run_edits actions)

/-- In every state that an index can come to, each entry stands under its own path, the counters
are those of the entries, files and directories together are all entries, and so the comparison of
the two finds nothing. -/
theorem counters_never_drift (options : Options) (file : Except Failure Content)
    (actions : List Action) :
    let index := ((fresh options file).run actions).index
    (∀ path e, index.entries.get? path = some e → e.path = path) ∧
      index.stats.counters = index.foldedStats.counters ∧
      index.stats.files + index.stats.directories = index.entries.size ∧
      index.verify = (true, []) := by
  intro index
  have h : index.Consistent := consistent_run (consistent_create options) actions
  obtain ⟨hholds, hsize⟩ := h.statsHold
  refine ⟨h.keyed, ?_, hsize, ?_⟩
  · exact (of_decide_eq_true hholds).symm
  · unfold verify
    rw [if_pos hholds]

end Session

end LiveIndex.Index
