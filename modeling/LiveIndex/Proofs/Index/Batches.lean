import LiveIndex.Proofs.Index.Answering
import LiveIndex.Proofs.Index.Notices

/-! What a batch of entries leaves. Path by path it stores the entries of that path one after
another; paths that were there keep their places and new ones follow in the order in which the batch
comes upon them. The counts add up to the batch, and the same batch again has nothing to do. -/

namespace LiveIndex.Index

open Session (Owes Unmoved owes_publish unmoved_publish)

variable {options : Options} {s : Index}

/-- What is found at a path after entries have been stored there one after another. -/
def overridden (found : Option Entry) (entries : List Entry) : Option Entry :=
  entries.foldl (fun found e => some (settled found e)) found

/-- The paths of a batch that are new among others, in the order in which they first appear. -/
def newPaths (known : List String) (entries : List Entry) : List String :=
  ((entries.map Entry.path).filter fun p => p ∉ known).eraseDups

/-- Each path goes its own way in a batch. -/
theorem get?_upsertAll (s : Index) (entries : List Entry) (p : String) :
    (s.upsertAll entries).1.entries.get? p =
      overridden (s.entries.get? p) (entries.filter (·.path = p)) := by
  induction entries generalizing s with
  | nil => rfl
  | cons e rest ih =>
    rw [upsertAll_cons, ih, get?_upsert]
    by_cases hp : e.path = p
    · rw [if_pos hp, List.filter_cons_of_pos (by simpa using hp), hp]
      rfl
    · rw [if_neg hp, List.filter_cons_of_neg (by simpa using hp)]

theorem keys_store (s : Index) (e : Entry) :
    (s.store e).entries.keys =
      if e.path ∈ s.entries.keys then s.entries.keys else s.entries.keys ++ [e.path] :=
  OrderedMap.keys_insert ..

/-- What an upsert does to the keys, and what it counts. -/
theorem upsert_cases (s : Index) (e : Entry) :
    (e.path ∉ s.entries.keys ∧ (s.upsert e).1.entries.keys = s.entries.keys ++ [e.path] ∧
        (s.upsert e).2 = .added) ∨
      (e.path ∈ s.entries.keys ∧ (s.upsert e).1.entries.keys = s.entries.keys ∧
        ((s.upsert e).2 = .updated ∨ (s.upsert e).2 = .unchanged)) := by
  unfold upsert
  cases hold : s.entries.get? e.path with
  | none =>
    have hnew : e.path ∉ s.entries.keys := by
      rw [OrderedMap.mem_keys_iff, hold]
      rintro ⟨v, hv⟩
      cases hv
    left
    refine ⟨hnew, ?_, rfl⟩
    rw [keys_store, if_neg hnew]
  | some old =>
    have hthere : e.path ∈ s.entries.keys := OrderedMap.mem_keys_iff.mpr ⟨old, hold⟩
    right
    dsimp only
    split
    · exact ⟨hthere, rfl, .inr rfl⟩
    · refine ⟨hthere, ?_, .inl rfl⟩
      rw [keys_store, if_pos hthere]

/-- Keys that were there keep their places, and the new ones are behind them. -/
theorem keys_upsertAll (s : Index) (entries : List Entry) :
    (s.upsertAll entries).1.entries.keys =
      s.entries.keys ++ newPaths s.entries.keys entries := by
  induction entries generalizing s with
  | nil => exact (List.append_nil _).symm
  | cons e rest ih =>
    rw [upsertAll_cons, ih]
    rcases s.upsert_cases e with ⟨hnew, hkeys, -⟩ | ⟨hthere, hkeys, -⟩
    · -- The path is the first of the new ones, and does not count when it comes again.
      have hagain : ((rest.map Entry.path).filter fun p => p ∉ s.entries.keys ++ [e.path]) =
          ((rest.map Entry.path).filter fun p => p ∉ s.entries.keys).filter
            fun p => !p == e.path := by
        rw [List.filter_filter]
        apply List.filter_congr
        intro p _
        by_cases hp : p = e.path
        · simp [hp]
        · simp [hp]
      rw [hkeys, newPaths, newPaths, hagain, List.map_cons,
        List.filter_cons_of_pos (by simpa using hnew), List.eraseDups_cons, List.append_assoc]
      rfl
    · rw [hkeys, newPaths, newPaths, List.map_cons,
        List.filter_cons_of_neg (by simpa using hthere)]

theorem size_eq_length_keys (m : OrderedMap String Entry) : m.size = m.keys.length :=
  (List.length_map Prod.fst).symm

/-- The counts of a batch: each entry is counted once, an addition for each new path, and what is
told of are the additions and the updates. -/
theorem counts_upsertAll (s : Index) (entries : List Entry) :
    (s.upsertAll entries).2.1.added + (s.upsertAll entries).2.1.updated +
        (s.upsertAll entries).2.1.unchanged = entries.length ∧
      (s.upsertAll entries).2.1.removed = 0 ∧
      (s.upsertAll entries).1.entries.size =
        s.entries.size + (s.upsertAll entries).2.1.added ∧
      (s.upsertAll entries).2.2.length =
        (s.upsertAll entries).2.1.added + (s.upsertAll entries).2.1.updated := by
  induction entries generalizing s with
  | nil => exact ⟨rfl, rfl, rfl, rfl⟩
  | cons e rest ih =>
    obtain ⟨hsum, hremoved, hsize, htold⟩ := ih (s.upsert e).1
    have hsummary : (s.upsertAll (e :: rest)).2.1 =
        (s.upsert e).2.count ((s.upsert e).1.upsertAll rest).2.1 := rfl
    have hchanges : (s.upsertAll (e :: rest)).2.2 =
        ((s.upsert e).2.change? e).toList ++ ((s.upsert e).1.upsertAll rest).2.2 := rfl
    rw [hsummary, hchanges, upsertAll_cons, List.length_append, htold, hsize, List.length_cons,
      size_eq_length_keys (s.upsert e).1.entries, size_eq_length_keys s.entries]
    generalize ((s.upsert e).1.upsertAll rest).2.1 = summary at hsum hremoved
    rcases s.upsert_cases e with ⟨-, hkeys, hadded⟩ | ⟨-, hkeys, hupdated | hunchanged⟩
    · have hlonger : (s.entries.keys ++ [e.path]).length = s.entries.keys.length + 1 :=
        List.length_append
      have htells : ((Outcome.added.change? e).toList).length = 1 := rfl
      rw [hkeys, hadded, hlonger, htells]
      dsimp only [Outcome.count]
      omega
    · have htells : ((Outcome.updated.change? e).toList).length = 1 := rfl
      rw [hkeys, hupdated, htells]
      dsimp only [Outcome.count]
      omega
    · have htells : ((Outcome.unchanged.change? e).toList).length = 0 := rfl
      rw [hkeys, hunchanged, htells]
      dsimp only [Outcome.count]
      omega

-- A path may be new, then something else, then the same.
example : ((create .default).upsertAll
      [ oldEntry "/r/d" "d" "d" .file, oldEntry "/r/d" "d" "d" .directory,
        oldEntry "/r/d" "d" "d" .directory ]).2.1 = ⟨1, 1, 0, 1⟩ := rfl

/-- A batch leaves the version alone; what is told of it raises it. -/
theorem version_upsertAll (s : Index) (entries : List Entry) :
    (s.upsertAll entries).1.version = s.version := by
  have hone (s : Index) (e : Entry) : (s.upsert e).1.version = s.version := by
    unfold upsert
    split
    · rfl
    · split <;> rfl
  induction entries generalizing s with
  | nil => rfl
  | cons e rest ih => rw [upsertAll_cons, ih, hone]

/-- Where each entry of a batch says what is stored at its path, there is nothing to do. -/
theorem upsertAll_of_stored {entries : List Entry}
    (h : ∀ e ∈ entries, ∃ old, s.entries.get? e.path = some old ∧ old.same e = true) :
    s.upsertAll entries = (s, ⟨0, 0, 0, entries.length⟩, []) := by
  induction entries with
  | nil => rfl
  | cons e rest ih =>
    obtain ⟨hfirst, hrest⟩ := List.forall_mem_cons.mp h
    obtain ⟨old, hold, hsame⟩ := hfirst
    have hone : s.upsert e = (s, .unchanged) := by
      rw [upsert, hold]
      exact if_pos hsame
    rw [upsertAll, hone]
    dsimp only
    rw [ih hrest]
    rfl

/-- After a batch of different paths each of its entries says what is stored at its path. -/
theorem stored_of_upsertAll {entries : List Entry} (hpaths : (entries.map Entry.path).Nodup)
    {e : Entry} (he : e ∈ entries) :
    ∃ old, (s.upsertAll entries).1.entries.get? e.path = some old ∧ old.same e = true :=
  ⟨_, get?_upsertAll_of_mem hpaths he, settled_same ..⟩

/-- A batch changes what is held by its entries alone; the version counts it if any of them was
added or updated, and the counts are the answer. -/
theorem beginBatch_spec (s : Index) (now : Int) (entries : List Entry) :
    Owes (.summary (s.upsertAll entries).2.1) (s.beginBatch now entries).turn ∧
      SameStock (s.upsertAll entries).1 (s.beginBatch now entries).state ∧
      (s.beginBatch now entries).state.version = s.version +
        if 0 < (s.upsertAll entries).2.1.added + (s.upsertAll entries).2.1.updated
          then 1 else 0 := by
  have hversion := version_upsertAll s entries
  obtain ⟨-, -, -, htold⟩ := counts_upsertAll s entries
  rw [← htold, ← hversion]
  unfold beginBatch
  generalize s.upsertAll entries = result
  obtain ⟨i, summary, changes⟩ := result
  dsimp only
  split
  · next hempty =>
    obtain rfl := List.isEmpty_iff.mp hempty
    exact ⟨.answers, ⟨⟨rfl, rfl⟩, rfl, rfl⟩, (add_zero _).symm⟩
  · next hsome =>
    have hanswer : (AfterSave.summary summary).answer? = some (.summary summary) := rfl
    have hmoved := unmoved_publish hanswer i now changes
    have hbumped : SameStock i (i.bump now) := ⟨⟨rfl, rfl⟩, rfl, rfl⟩
    have hchanges : 0 < changes.length :=
      List.length_pos_iff.mpr fun h => hsome (List.isEmpty_iff.mpr h)
    rw [if_pos hchanges]
    exact ⟨owes_publish hanswer .., hbumped.trans hmoved.toSameStock, hmoved.version⟩

/-- Where there is nothing to do, the index stays as it is, down to the marks of its last change,
and the answer comes at once. -/
theorem beginBatch_of_stored {entries : List Entry} (now : Int)
    (h : ∀ e ∈ entries, ∃ old, s.entries.get? e.path = some old ∧ old.same e = true) :
    s.beginBatch now entries = .done s [] (.summary ⟨0, 0, 0, entries.length⟩) := by
  rw [beginBatch, upsertAll_of_stored h]
  rfl

namespace Session

/-- In whatever state an index is and whatever a batch holds, the entries of one path override what
is stored there one after another; paths that were there keep their places, and new ones follow in
the order in which they first appear. Each entry is counted once, the additions are what the index
grows by, and the version goes up by one if anything was added or updated. As long as the entries
are those that it has left, the same batch again, if its paths are different, finds nothing to do
and leaves the index as it is. -/
theorem batch_overrides (options : Options) (file : Except Failure Content)
    (before : List Action) (now : Int) (entries : List Entry) :
    let s := (fresh options file).run before
    let t := s.step (.begin now (.batch entries))
    let summary := (s.index.upsertAll entries).2.1
    (∀ p, t.index.entries.get? p =
        overridden (s.index.entries.get? p) (entries.filter (·.path = p))) ∧
      t.index.entries.keys = s.index.entries.keys ++ newPaths s.index.entries.keys entries ∧
      (summary.added + summary.updated + summary.unchanged = entries.length ∧
        summary.removed = 0 ∧
        t.index.entries.size = s.index.entries.size + summary.added) ∧
      t.index.version =
        s.index.version + (if 0 < summary.added + summary.updated then 1 else 0) ∧
      t.Resolves s.nextId (.summary summary) ∧
      ((entries.map Entry.path).Nodup → ∀ (later : List Action) (again : Int),
        let u := t.run later
        u.index.entries = t.index.entries →
          (u.step (.begin again (.batch entries))).index = u.index ∧
            (u.step (.begin again (.batch entries))).answers =
              (u.nextId, .ok (.summary ⟨0, 0, 0, entries.length⟩)) :: u.answers) := by
  intro s t summary
  obtain ⟨howes, hstock, hversion⟩ := beginBatch_spec s.index now entries
  have hmoved : Unmoved (s.index.beginBatch now entries).state t.index :=
    unmoved_settle { s with nextId := s.nextId + 1 } s.nextId none howes
  have hentries : t.index.entries = (s.index.upsertAll entries).1.entries :=
    (hstock.trans hmoved.toSameStock).entries
  obtain ⟨hsum, hremoved, hsize, -⟩ := counts_upsertAll s.index entries
  refine ⟨?_, ?_, ?_, ?_, ?_, ?_⟩
  · intro p
    rw [hentries, get?_upsertAll]
  · rw [hentries, keys_upsertAll]
  · rw [hentries]
    exact ⟨hsum, hremoved, hsize⟩
  · rw [hmoved.version, hversion]
  · exact resolves_begin options file before now howes
  · intro hpaths later again u hu
    have hstored : ∀ e ∈ entries, ∃ old,
        u.index.entries.get? e.path = some old ∧ old.same e = true := by
      intro e he
      rw [hu, hentries]
      exact stored_of_upsertAll hpaths he
    have hidle := beginBatch_of_stored again hstored
    have hstep : u.step (.begin again (.batch entries)) =
        u.launch none (.done u.index [] (.summary ⟨0, 0, 0, entries.length⟩)) := by
      rw [step, begin, hidle]
    rw [hstep]
    exact ⟨rfl, rfl⟩

/-- A directory that has turned into a file comes with a file that is new: both are counted, and
when they come again nothing is. -/
theorem batch_overrides_again :
    let d := oldEntry "/r/d" "d" "d" .directory
    let entries := [{ d with kind := .file }, oldEntry "/r/a" "a" "a" .file]
    let s := (fresh .default (.error .badDocument)).run [.add 0 true d]
    let t := s.step (.begin 1 (.batch entries))
    t.index.entries.keys = ["/r/d", "/r/a"] ∧ t.index.version = 2 ∧
      t.Resolves 0 (.summary ⟨1, 1, 0, 0⟩) ∧
      (t.step (.begin 2 (.batch entries))).index = t.index := by
  intro d entries s t
  have hpaths : (entries.map Entry.path).Nodup := by decide
  obtain ⟨-, hkeys, -, hversion, hresolves, hagain⟩ :=
    batch_overrides .default (.error .badDocument) [.add 0 true d] 1 entries
  exact ⟨hkeys, hversion, hresolves, (hagain hpaths [] 2 rfl).1⟩

end Session

end LiveIndex.Index
