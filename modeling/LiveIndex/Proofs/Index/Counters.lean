import LiveIndex.Index.Calls
import LiveIndex.Proofs.Store.OrderedMap
import Mathlib.Algebra.Group.Prod

/-! Entries and counters in step. Every entry stands under its own path, and the counters, which
change by one entry at a time, are those of the entries as they are. -/

namespace LiveIndex

/-- What one entry adds to the counters. -/
def Entry.share (e : Entry) : Int × Int × Int :=
  if e.isDirectory then (0, 1, 0) else (1, 0, e.size)

namespace Stats

theorem counters_apply_one (s : Stats) (e : Entry) :
    (s.apply e 1).counters = s.counters + e.share := by
  unfold apply Entry.share
  split <;> simp [counters]

theorem counters_apply_neg (s : Stats) (e : Entry) :
    (s.apply e (-1)).counters = s.counters - e.share := by
  unfold apply Entry.share
  split <;> simp [counters, sub_eq_add_neg]

theorem counters_ofEntries (entries : List Entry) (lastUpdated : Int) :
    (ofEntries entries lastUpdated).counters = (entries.map Entry.share).sum := by
  -- From any counters on, since those of the fold do not stay zero.
  have hfold (s : Stats) :
      (entries.foldl (fun s e => s.apply e 1) s).counters =
        s.counters + (entries.map Entry.share).sum := by
    induction entries generalizing s with
    | nil => simp
    | cons e entries ih =>
      rw [List.foldl_cons, ih, counters_apply_one, List.map_cons, List.sum_cons, add_assoc]
  rw [ofEntries, hfold]
  exact zero_add _

theorem counters_foldl_neg (entries : List Entry) (s : Stats) :
    (entries.foldl (fun s e => s.apply e (-1)) s).counters =
      s.counters - (entries.map Entry.share).sum := by
  induction entries generalizing s with
  | nil => simp
  | cons e entries ih =>
    rw [List.foldl_cons, ih, counters_apply_neg, List.map_cons, List.sum_cons, sub_sub]

theorem apply_lastUpdated (s : Stats) (e : Entry) (sign : Int) :
    (s.apply e sign).lastUpdated = s.lastUpdated := by
  unfold apply
  split <;> rfl

theorem lastUpdated_ofEntries (entries : List Entry) (lastUpdated : Int) :
    (ofEntries entries lastUpdated).lastUpdated = lastUpdated := by
  have hfold (s : Stats) :
      (entries.foldl (fun s e => s.apply e 1) s).lastUpdated = s.lastUpdated := by
    induction entries generalizing s with
    | nil => rfl
    | cons e entries ih => rw [List.foldl_cons, ih, apply_lastUpdated]
  exact hfold _

theorem eq_of_counters {s s' : Stats} (hc : s.counters = s'.counters)
    (hl : s.lastUpdated = s'.lastUpdated) : s = s' := by
  obtain ⟨files, directories, size, last⟩ := s
  simp only [counters, Prod.mk.injEq] at hc
  obtain ⟨rfl, rfl, rfl⟩ := hc
  obtain rfl := hl
  rfl

end Stats

theorem Entry.sum_share_size (entries : List Entry) :
    (entries.map Entry.share).sum.1 + (entries.map Entry.share).sum.2.1 = entries.length := by
  induction entries with
  | nil => rfl
  | cons e entries ih =>
    have he : e.share.1 + e.share.2.1 = 1 := by
      unfold Entry.share
      split <;> rfl
    simp only [List.map_cons, List.sum_cons, Prod.fst_add, Prod.snd_add, List.length_cons,
      Nat.cast_add, Nat.cast_one]
    omega

namespace Index

/-- Every entry stands under its own path, and the counters are those of the entries. -/
structure Consistent (s : Index) : Prop where
  keyed : ∀ p e, s.entries.get? p = some e → e.path = p
  counted : s.stats.counters = s.entries.total Entry.share

/-- Entries and counters as they were. -/
structure SameContent (s s' : Index) : Prop where
  entries : s'.entries = s.entries
  counters : s'.stats.counters = s.stats.counters

theorem Consistent.of_same {s s' : Index} (h : s.Consistent) (hs : SameContent s s') :
    s'.Consistent := by
  refine ⟨?_, ?_⟩
  · rw [hs.entries]
    exact h.keyed
  · rw [hs.counters, hs.entries]
    exact h.counted

theorem Consistent.of_empty {s : Index} (he : s.entries = .empty) (hc : s.stats.counters = 0) :
    s.Consistent := by
  refine ⟨?_, ?_⟩
  · intro p e h
    rw [he] at h
    cases h
  · rw [hc, he]
    rfl

theorem consistent_create (options : Options) : (create options).Consistent :=
  .of_empty rfl rfl

theorem consistent_store {s : Index} (h : s.Consistent) (e : Entry) : (s.store e).Consistent := by
  refine ⟨?_, ?_⟩
  · intro p e' he'
    have hget := (OrderedMap.get?_insert s.entries e.path p e).symm.trans he'
    split at hget
    · next hp => exact Option.some.inj hget ▸ hp
    · exact h.keyed p e' hget
  · -- The share of an entry that was there is taken off before the new one is added.
    have htotal : (s.store e).entries.total Entry.share =
        s.entries.total Entry.share - (s.entries.get? e.path).elim 0 Entry.share + e.share :=
      OrderedMap.total_insert Entry.share s.entries e.path e
    rw [htotal, ← h.counted]
    simp only [store, tellFinder, Stats.counters_apply_one]
    cases s.entries.get? e.path with
    | none => simp
    | some old => rw [Stats.counters_apply_neg]; rfl

/-- What is left without a family has the shares that its members do not have. -/
theorem total_without_family (s : Index) {path : String} {e : Entry}
    (he : s.entries.get? path = some e) :
    (s.entries.filter fun p _ =>
        !(p = path || (e.isDirectory && Path.isBeneath path p))).total Entry.share =
      s.entries.total Entry.share - ((s.family path).map Entry.share).sum := by
  have herase := OrderedMap.total_erase Entry.share s.entries path
  rw [he, Option.elim_some] at herase
  by_cases hd : e.isDirectory = true
  · -- A directory takes all that is beneath it along, and its own entry is not beneath it.
    have hkept : (s.entries.filter fun p _ =>
        !(p = path || (e.isDirectory && Path.isBeneath path p))) =
        (s.entries.erase path).filter fun p _ => !Path.isBeneath path p := by
      apply OrderedMap.ext_items
      simp only [OrderedMap.filter, OrderedMap.erase, List.filter_filter, hd, Bool.true_and,
        Bool.not_or, decide_not, Bool.and_comm]
    have hsplit := OrderedMap.total_filter Entry.share (s.entries.erase path)
      fun p _ => Path.isBeneath path p
    have hfamily : ((s.family path).map Entry.share).sum = e.share +
        ((s.entries.erase path).filter fun p _ => Path.isBeneath path p).total Entry.share := by
      simp only [family, he, hd, if_true, List.map_cons, List.sum_cons, OrderedMap.total]
    rw [hkept, hfamily, ← sub_sub, ← herase, ← hsplit]
    abel
  · have hkept : (s.entries.filter fun p _ =>
        !(p = path || (e.isDirectory && Path.isBeneath path p))) = s.entries.erase path := by
      apply OrderedMap.ext_items
      simp only [OrderedMap.filter, OrderedMap.erase, hd, Bool.false_and, Bool.or_false, decide_not]
    rw [hkept, herase]
    simp only [family, he, hd, if_false, List.map_cons, List.map_nil, List.sum_singleton,
      Bool.false_eq_true]

theorem consistent_removeFamily {s : Index} (h : s.Consistent) (path : String) :
    (s.removeFamily path).1.Consistent := by
  unfold removeFamily
  split
  · exact h
  · next e he =>
    refine ⟨?_, ?_⟩
    · intro p e' he'
      have hget := (OrderedMap.get?_filter s.entries _ p).symm.trans he'
      exact h.keyed p e' (Option.filter_eq_some_iff.mp hget).1
    · have hkept := total_without_family s he
      rw [← h.counted, ← Stats.counters_foldl_neg] at hkept
      exact hkept.symm

theorem consistent_clear (s : Index) (now : Int) : (s.clear now).Consistent :=
  .of_empty rfl rfl

theorem consistent_dropState (s : Index) : s.dropState.Consistent :=
  .of_empty rfl rfl

/-- Whatever is stored, the counters are counted anew from the entries that are taken over. -/
theorem consistent_adopt (s : Index) (snapshot : Snapshot) : (s.adopt snapshot).Consistent := by
  refine ⟨?_, ?_⟩
  · -- By induction on what is still to be taken over, with any map that has keys of its own.
    have hfold (entries : List Entry) (m : OrderedMap String Entry)
        (hm : ∀ p e, m.get? p = some e → e.path = p) (p : String) (e : Entry)
        (he : ((entries.map fun e => (e.path, e)).foldl (fun m kv => m.insert kv.1 kv.2) m).get? p =
          some e) : e.path = p := by
      induction entries generalizing m with
      | nil => exact hm p e he
      | cons e' entries ih =>
        refine ih (m.insert e'.path e') ?_ he
        intro p' e'' h''
        rw [OrderedMap.get?_insert] at h''
        split at h''
        · next hp => exact Option.some.inj h'' ▸ hp
        · exact hm p' e'' h''
    intro p e he
    refine hfold snapshot.entries .empty ?_ p e he
    intro p e h
    cases h
  · exact Stats.counters_ofEntries _ _

/-- Consistent counters hold, and count every entry. -/
theorem Consistent.statsHold {s : Index} (h : s.Consistent) :
    s.statsHold = true ∧ s.stats.files + s.stats.directories = s.entries.size := by
  have hc : s.stats.counters = (s.entries.values.map Entry.share).sum := h.counted
  constructor
  · rw [Index.statsHold, foldedStats, Stats.counters_ofEntries, hc]
    exact decide_eq_true rfl
  · have hsize := Entry.sum_share_size s.entries.values
    rw [← hc, OrderedMap.values, List.length_map] at hsize
    exact hsize

end Index

end LiveIndex
