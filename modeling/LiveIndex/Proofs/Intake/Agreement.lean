import LiveIndex.Proofs.Intake.Coalescing

/-! A flush and the same changes made one after another leave the same index, as long as what is
removed is orderly. -/

namespace LiveIndex

namespace Index

/-- The call that makes an update by itself. -/
def Update.call : Update → Call
  | .store e => .batch [e]
  | .remove path => .remove path

namespace Session

/-- Makes updates one after another, each by a call of its own. -/
def callEach (s : Session) (calls : List (Moment × Update)) : Session :=
  calls.foldl (fun s c => s.call c.1 c.2.call) s

variable {s : Session}

theorem call_update (h : s.Idle) {m : Moment} (hm : m.Bearable) (u : Update) :
    (s.call m u.call).Idle ∧ (s.call m u.call).index.entries = (s.index.apply u).entries := by
  cases u with
  | store e =>
    have hleft := call_batch h hm [e]
    exact ⟨hleft.idle, hleft.entries⟩
  | remove path =>
    have hleft := call_remove h hm path
    exact ⟨hleft.idle, hleft.entries⟩

theorem applyAll_congr {s t : Index} (h : s.entries = t.entries) (us : List Update) :
    (s.applyAll us).entries = (t.applyAll us).entries := by
  induction us generalizing s t with
  | nil => exact h
  | cons u us ih => exact ih (apply_congr h u)

/-- Calls one after another leave what their updates leave. -/
theorem callEach_entries (h : s.Idle) {moments : List Moment} {us : List Update}
    (hmoments : ∀ m ∈ moments, m.Bearable) (hlength : moments.length = us.length) :
    (s.callEach (moments.zip us)).index.entries = (s.index.applyAll us).entries := by
  induction us generalizing s moments with
  | nil =>
    rw [List.zip_nil_right]
    rfl
  | cons u us ih =>
    obtain _ | ⟨m, moments⟩ := moments
    · cases hlength
    obtain ⟨hidle, hentries⟩ := call_update h (hmoments m List.mem_cons_self) u
    rw [List.zip_cons_cons, applyAll_cons, ← applyAll_congr hentries]
    exact ih hidle (fun m' h => hmoments m' (List.mem_cons_of_mem _ h)) (Nat.succ.inj hlength)

theorem consistent_call (h : s.index.Consistent) (m : Moment) (c : Call) :
    (s.call m c).index.Consistent :=
  consistent_step (consistent_step h _) _

theorem consistent_callEach (h : s.index.Consistent) (calls : List (Moment × Update)) :
    (s.callEach calls).index.Consistent := by
  induction calls generalizing s with
  | nil => exact h
  | cons c calls ih => exact ih (consistent_call h c.1 c.2.call)

end Session

/-- Consistent indexes that agree have the same counters. -/
theorem counters_of_agree {s t : Index} (hs : s.Consistent) (ht : t.Consistent)
    (h : Agree s.entries t.entries) : s.stats.counters = t.stats.counters := by
  rw [hs.counted, ht.counted]
  refine OrderedMap.total_congr fun p => ?_
  have hp := h p
  generalize s.entries.get? p = v, t.entries.get? p = w at hp
  cases hp with
  | none => exact .none
  | some hsame => exact .some (Entry.share_of_same hsame)

end Index

namespace Intake

open Index (Moment Update)

theorem Pair.consistent_serveAll {p : Pair} (h : p.base.index.Consistent)
    (moments : List Moment) : (p.serveAll moments).base.index.Consistent := by
  induction moments generalizing p with
  | nil => exact h
  | cons m moments ih =>
    refine ih (p := p.serve m) ?_
    unfold serve
    split
    · exact h
    · split
      · exact Index.Session.consistent_call h m _
      · exact Index.Session.consistent_call h m _
      · exact h

/-- The removals of a batch are of different paths, each of which has an update. -/
theorem Holds.length_removals_le {ix : Intake} {us : List Update} (h : Holds ix us) :
    ix.removals.length ≤ us.length := by
  have hpaths : (ix.removals.map Change.path).Nodup :=
    (OrderedMap.nodup_map_values fun _ _ hc => (h.of_get? hc).1).sublist
      (List.filter_sublist.map _)
  have hsub : ix.removals.map Change.path ⊆ us.map Update.path := by
    intro p hp
    obtain ⟨hpath, before, after, hus, -⟩ :=
      Update.last_eq_some_iff.mp ((h.coalesced.mem_removals p).mp hp)
    refine List.mem_map.mpr ⟨.remove p, ?_, hpath⟩
    rw [hus]
    exact List.mem_append_right _ List.mem_cons_self
  have hle := (List.subperm_of_subset hpaths hsub).length_le
  rwa [List.length_map, List.length_map] at hle

/-- Changes that are taken in before a flush leave the same entries and the same counters as they do
one after another, if they are orderly. -/
theorem flush_agrees (options : Index.Options) (file : Except Failure Content)
    (actions : List Index.Action)
    (hidle : ((Index.Session.fresh options file).run actions).Idle) (root : String)
    (settings : Options) (arrivals : List Arrival)
    (horderly : Index.Orderly ((Index.Session.fresh options file).run actions).index
      (arrivals.map Arrival.update))
    (moments singles : List Moment) (hmoments : ∀ m ∈ moments ++ singles, m.Bearable)
    (hlength : arrivals.length + 1 ≤ moments.length) (hsingles : singles.length = arrivals.length) :
    let base := (Index.Session.fresh options file).run actions
    let s := (Session.fresh root settings).deliverAll arrivals
    let flushed := Pair.flush ⟨s, base⟩ moments
    let direct := base.callEach (singles.zip (arrivals.map Arrival.update))
    (s.nextId, .ok ()) ∈ flushed.intake.answers ∧
      Index.Agree direct.index.entries flushed.base.index.entries ∧
      direct.index.stats.counters = flushed.base.index.stats.counters := by
  intro base s flushed direct
  -- When the flush begins, the queue holds the last change of each path.
  obtain ⟨hflights, hholds⟩ := Session.deliverAll_holds (s := Session.fresh root settings) rfl
    (holds_create root settings) arrivals
  rw [List.nil_append] at hholds
  have hshort : s.intake.removals.length + 1 ≤ moments.length := by
    have hle : s.intake.removals.length ≤ _ := hholds.length_removals_le
    rw [List.length_map] at hle
    omega
  obtain ⟨-, hanswered, -, hentries⟩ := Pair.flush_leaves hflights hholds hidle
    (fun m h => hmoments m (List.mem_append_left _ h)) hshort
  have hdirect :
      direct.index.entries = (base.index.applyAll (arrivals.map Arrival.update)).entries :=
    Index.Session.callEach_entries hidle (fun m h => hmoments m (List.mem_append_right _ h))
      (by rw [hsingles, List.length_map])
  have hagree : Index.Agree direct.index.entries flushed.base.index.entries := by
    rw [hdirect, hentries]
    exact Index.agree_of_orderly horderly hholds.coalesced
  have hconsistent : base.index.Consistent :=
    Index.Session.consistent_run (Index.consistent_create options) actions
  refine ⟨hanswered, hagree, ?_⟩
  -- Both ways keep the counters in step with the entries.
  exact Index.counters_of_agree (Index.Session.consistent_callEach hconsistent _)
    (Pair.consistent_serveAll hconsistent moments) hagree

/-- A file is removed, then the directory that it was in. -/
def lost : List Arrival :=
  [ ⟨.change "remove" "/r/d/a.txt", .remove, .remove "/r/d/a.txt", .change rfl _, rfl⟩,
    ⟨.directoryChange "remove-directory" "/r/d", .removeDirectory, .remove "/r/d",
      .directoryChange rfl rfl _, rfl⟩ ]

/-- The directory is made again. -/
def back : Arrival :=
  ⟨.directoryChange "add-directory" "/r/d", .addDirectory,
    .store (Index.oldEntry "/r/d" "d" "d" .directory), .directoryChange rfl rfl _, rfl⟩

theorem orderly_lost {s : Index}
    (hs : ∀ p, s.entries.get? p ≠ none → p = "/r/d" ∨ p = "/r/d/a.txt") :
    Index.Orderly s ((lost ++ [back]).map Arrival.update) := by
  have hever : ∀ p, (s.entries.get? p ≠ none ∨
      ∃ e, .store e ∈ (lost ++ [back]).map Arrival.update ∧ e.path = p) →
      p = "/r/d" ∨ p = "/r/d/a.txt" := by
    rintro p (hp | ⟨e, he, rfl⟩)
    · exact hs p hp
    · simp only [lost, back, List.cons_append, List.nil_append, List.map_cons, List.map_nil,
        List.mem_cons, reduceCtorEq, Update.store.injEq, List.not_mem_nil, or_false,
        false_or] at he
      exact .inl (by rw [he]; rfl)
  intro before q after hsplit
  have hq : q = "/r/d/a.txt" ∨ q = "/r/d" := by
    have hmem : .remove q ∈ (lost ++ [back]).map Arrival.update := by
      rw [hsplit]
      exact List.mem_append_right _ List.mem_cons_self
    simpa [lost, back] using hmem
  refine .empty fun p hbeneath hp => ?_
  rcases hever p hp with rfl | rfl
  · -- The directory is beneath none of the two.
    rcases hq with rfl | rfl
    · exact absurd hbeneath (by decide)
    · exact absurd hbeneath (by decide)
  · rfl

/-- A directory that was emptied before it was removed and made again is as it would be without the
intake. -/
theorem flush_agrees_emptied :
    Index.Agree
      (((Index.Session.fresh .default (.error .badDocument)).run Index.smallActions).callEach
        ((List.replicate 3 ⟨0, .ok ()⟩).zip ((lost ++ [back]).map Arrival.update))).index.entries
      (Pair.flush ⟨(Session.fresh "/r" .default).deliverAll (lost ++ [back]),
        (Index.Session.fresh .default (.error .badDocument)).run Index.smallActions⟩
        (List.replicate 4 ⟨0, .ok ()⟩)).base.index.entries := by
  have hmoments : ∀ m ∈ List.replicate 4 (Moment.mk 0 (.ok ())) ++ List.replicate 3 ⟨0, .ok ()⟩,
      m.Bearable := fun m hm => Moment.bearable_of_mem_replicates hm
  exact (flush_agrees .default (.error .badDocument) Index.smallActions Index.idle_smallIndex "/r"
    .default (lost ++ [back]) (orderly_lost fun p => Index.paths_smallIndex)
    (List.replicate 4 ⟨0, .ok ()⟩) (List.replicate 3 ⟨0, .ok ()⟩) hmoments (Nat.le_refl 4) rfl).2.1

/-- If only the directory is removed and made again, its file stays in the index: the removal is
superseded before it is made. -/
theorem flush_keeps_swept :
    ¬∀ (options : Index.Options) (file : Except Failure Content) (actions : List Index.Action)
      (root : String) (settings : Options) (arrivals : List Arrival)
      (moments singles : List Moment),
      ((Index.Session.fresh options file).run actions).Idle →
      (∀ m ∈ moments ++ singles, m.Bearable) → arrivals.length + 1 ≤ moments.length →
      singles.length = arrivals.length →
      Index.Agree
        (((Index.Session.fresh options file).run actions).callEach
          (singles.zip (arrivals.map Arrival.update))).index.entries
        (Pair.flush ⟨(Session.fresh root settings).deliverAll arrivals,
          (Index.Session.fresh options file).run actions⟩ moments).base.index.entries := by
  intro hclaim
  have hmoments : ∀ m ∈ List.replicate 3 (Moment.mk 0 (.ok ())) ++ List.replicate 2 ⟨0, .ok ()⟩,
      m.Bearable := fun m hm => Moment.bearable_of_mem_replicates hm
  have hagree := hclaim .default (.error .badDocument) Index.smallActions "/r" .default
    (lost.drop 1 ++ [back]) (List.replicate 3 ⟨0, .ok ()⟩) (List.replicate 2 ⟨0, .ok ()⟩)
    Index.idle_smallIndex hmoments (Nat.le_refl 3) rfl
  -- One after another, the removal takes the file along, and nothing brings it back.
  exact Bool.false_ne_true (hagree.contains_eq "/r/d/a.txt")

end Intake

end LiveIndex
