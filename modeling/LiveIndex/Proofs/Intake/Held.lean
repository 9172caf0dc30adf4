import LiveIndex.Proofs.Intake.Turns

/-! What an intake holds at any time, also while it is being ended. All of it was queued once, and
what is queued while a batch is applied is newer than what the batch has of its path. -/

namespace LiveIndex.Intake

variable {ix : Intake}

/-- What is put back at the end of a batch goes under its own path. -/
theorem own_retryAll (h : ∀ path c, ix.queue.get? path = some c → c.path = path)
    (failed : List Change) :
    ∀ path c, (ix.retryAll failed).1.queue.get? path = some c → c.path = path := by
  induction failed generalizing ix with
  | nil => exact h
  | cons first rest ih =>
    rw [retryAll_cons]
    refine ih ?_
    intro path c hc
    rw [retry_queue] at hc
    split at hc
    · rw [OrderedMap.get?_insert] at hc
      split at hc
      · next hpath =>
        cases hc
        exact hpath
      · exact h path c hc
    · exact h path c hc

theorem mem_failing {calls : List Change} {result : Except Failure Unit} {c : Change}
    (h : c ∈ failing calls result) : Event.returned calls result = .failed calls ∧ c ∈ calls := by
  cases result with
  | ok _ => cases h
  | error f => exact ⟨rfl, h⟩

/-- What has failed of a batch was handed over in a call that failed, be it the one that returns. -/
theorem exists_failed_of_returned {T new : List Event} {g : Stage} {result : Except Failure Unit}
    (h : ∀ c ∈ g.failed, ∃ calls, .failed calls ∈ T ∧ c ∈ calls)
    (hnew : .returned g.current result ∈ new) {c : Change}
    (hc : c ∈ g.failed ++ failing g.current result) :
    ∃ calls, .failed calls ∈ T ++ new ∧ c ∈ calls := by
  rcases List.mem_append.mp hc with hc | hc
  · obtain ⟨calls, hcalls, hmem⟩ := h c hc
    exact ⟨calls, List.mem_append_left _ hcalls, hmem⟩
  · obtain ⟨hevent, hmem⟩ := mem_failing hc
    exact ⟨g.current, List.mem_append_right _ (hevent ▸ hnew), hmem⟩

namespace Session

variable {s t : Session} {a : Action}

/-- What holds at any time of the changes in the queue and in the batch that is applied. -/
structure Stocked (s : Session) : Prop where
  own : ∀ path c, s.intake.queue.get? path = some c → c.path = path
  entered : ∀ c ∈ s.held, .queued c.origin ∈ s.trace
  failed : ∀ g ∈ s.stages, ∀ c ∈ g.failed, ∃ calls, .failed calls ∈ s.trace ∧ c ∈ calls
  apart : ∀ g ∈ s.stages, (g.all.map Change.path).Nodup
  behind : ∀ g ∈ s.stages, ∀ c ∈ g.all, ∀ d, s.intake.queue.get? c.path = some d →
    c.arrival < d.arrival

/-- A newer change of its path was queued. -/
def Overtaken (s : Session) (c : Change) : Prop :=
  ∃ q, .queued q ∈ s.trace ∧ q.path = c.path ∧ c.arrival < q.arrival

theorem mem_held {c : Change} :
    c ∈ s.held ↔ c ∈ s.intake.queue.values ∨ ∃ g ∈ s.stages, c ∈ g.all := by
  rw [held, List.mem_append, List.mem_flatMap]

theorem held_eq_nil (hqueue : s.intake.queue.values = []) (hstages : s.stages = []) :
    s.held = [] := by
  rw [held, hqueue, hstages]
  rfl

theorem Stocked.entered_of_queue (h : s.Stocked) {c : Change}
    (hc : c ∈ s.intake.queue.values) : .queued c.origin ∈ s.trace :=
  h.entered c (mem_held.mpr (.inl hc))

theorem Stocked.entered_of_stage (h : s.Stocked) {g : Stage} (hg : g ∈ s.stages) {c : Change}
    (hc : c ∈ g.all) : .queued c.origin ∈ s.trace :=
  h.entered c (mem_held.mpr (.inr ⟨g, hg, hc⟩))

theorem Stocked.failed_append (h : s.Stocked) {new : List Event} (hstages : t.stages = s.stages)
    (htrace : t.trace = s.trace ++ new) :
    ∀ g ∈ t.stages, ∀ c ∈ g.failed, ∃ calls, .failed calls ∈ t.trace ∧ c ∈ calls := by
  intro g hg c hc
  obtain ⟨calls, hcalls, hmem⟩ := h.failed g (hstages ▸ hg) c hc
  exact ⟨calls, htrace ▸ List.mem_append_left _ hcalls, hmem⟩

theorem stocked_nothing (h : s.Stocked) {arrivals : List Event}
    (hqueue : t.intake.queue = s.intake.queue) (hstages : t.stages = s.stages)
    (htrace : t.trace = s.trace ++ arrivals) : t.Stocked := by
  refine ⟨hqueue ▸ h.own, ?entered, h.failed_append hstages htrace, hstages ▸ h.apart, ?behind⟩
  case entered =>
    intro c hc
    rw [mem_held, hqueue, hstages, ← mem_held] at hc
    rw [htrace]
    exact List.mem_append_left _ (h.entered c hc)
  case behind =>
    rw [hqueue, hstages]
    exact h.behind

/-- A change that is queued is newer than all that is held of its path. -/
theorem stocked_queued (h : s.Stocked) {q : Change} {arrivals : List Event}
    (hretries : q.retries = 0)
    (hnewer : ∀ c, .queued c ∈ s.trace → c.path = q.path → c.arrival < q.arrival)
    (hqueue : t.intake.queue = s.intake.queue.insert q.path q) (hstages : t.stages = s.stages)
    (htrace : t.trace = s.trace ++ arrivals ++ [.queued q]) : t.Stocked := by
  have hgrows : t.trace = s.trace ++ (arrivals ++ [.queued q]) :=
    htrace.trans (List.append_assoc ..)
  refine ⟨?own, ?entered, h.failed_append hstages hgrows, hstages ▸ h.apart, ?behind⟩
  case own =>
    intro path c hc
    rw [hqueue, OrderedMap.get?_insert] at hc
    split at hc
    · next hpath =>
      cases hc
      exact hpath
    · exact h.own path c hc
  case entered =>
    intro c hc
    rw [mem_held, hqueue, hstages] at hc
    have hsplit : c = q ∨ c ∈ s.held := by
      rcases hc with hc | hc
      · exact (mem_values_insert hc).imp_right fun hc => mem_held.mpr (.inl hc)
      · exact .inr (mem_held.mpr (.inr hc))
    rcases hsplit with rfl | hc
    · rw [htrace, origin_of_fresh hretries]
      exact List.mem_append_right _ List.mem_cons_self
    · rw [hgrows]
      exact List.mem_append_left _ (h.entered c hc)
  case behind =>
    intro g hg c hc d hd
    rw [hstages] at hg
    rw [hqueue, OrderedMap.get?_insert] at hd
    split at hd
    · next hpath =>
      cases hd
      exact hnewer c.origin (h.entered_of_stage hg hc) hpath.symm
    · exact h.behind g hg c hc d hd

/-- A batch takes all that is queued, so nothing is queued behind it yet. -/
theorem stocked_taken (h : s.Stocked) {calls rest : List Change} {new : List Event}
    (hall : (calls ++ rest).Perm s.intake.queue.values) (hqueue : t.intake.queue = .empty)
    (hafter : t.stages = [⟨rest, calls, []⟩]) (htrace : t.trace = s.trace ++ new) :
    t.Stocked := by
  have hbatch : (Stage.all ⟨rest, calls, []⟩).Perm s.intake.queue.values := by
    rw [Stage.all, List.append_nil]
    exact List.perm_append_comm.trans hall
  refine ⟨?own, ?entered, ?failed, ?apart, ?behind⟩
  case own =>
    intro path c hc
    rw [hqueue] at hc
    cases hc
  case entered =>
    intro c hc
    rw [held_of_stage hafter, hqueue] at hc
    have hc : c ∈ Stage.all ⟨rest, calls, []⟩ :=
      (List.mem_append.mp hc).resolve_left List.not_mem_nil
    rw [htrace]
    exact List.mem_append_left _ (h.entered_of_queue (hbatch.mem_iff.mp hc))
  case failed =>
    rw [hafter]
    exact List.forall_mem_singleton.mpr fun _ hc => absurd hc List.not_mem_nil
  case apart =>
    rw [hafter]
    refine List.forall_mem_singleton.mpr ((hbatch.map Change.path).nodup_iff.mpr ?_)
    exact OrderedMap.nodup_map_values h.own
  case behind =>
    intro g _ c _ d hd
    rw [hqueue] at hd
    cases hd

/-- What a batch has after a call it had before. -/
theorem stocked_returned (h : s.Stocked) {g : Stage} {result : Except Failure Unit} {c : Change}
    {rest : List Change} (hwaiting : g.waiting = c :: rest)
    (hqueue : t.intake.queue = s.intake.queue) (hbefore : s.stages = [g])
    (hafter : t.stages = [⟨rest, [c], g.failed ++ failing g.current result⟩])
    (htrace : t.trace = s.trace ++ [.returned g.current result, .handed [c]]) : t.Stocked := by
  have hg : g ∈ s.stages := hbefore ▸ List.mem_cons_self
  have hnext := Stage.next_perm hwaiting result
  have hmem {d : Change} (hd : d ∈ Stage.all ⟨rest, [c], g.failed ++ failing g.current result⟩) :
      d ∈ g.all := hnext.mem_iff.mpr (List.mem_append_left _ hd)
  refine ⟨hqueue ▸ h.own, ?entered, ?failed, ?apart, ?behind⟩
  case entered =>
    intro d hd
    rw [held_of_stage hafter, hqueue] at hd
    rw [htrace]
    refine List.mem_append_left _ ((List.mem_append.mp hd).elim h.entered_of_queue fun hd => ?_)
    exact h.entered_of_stage hg (hmem hd)
  case failed =>
    rw [hafter, htrace]
    exact List.forall_mem_singleton.mpr fun _ hd =>
      exists_failed_of_returned (h.failed g hg) List.mem_cons_self hd
  case apart =>
    have hnodup := h.apart g hg
    rw [(hnext.map Change.path).nodup_iff, List.map_append] at hnodup
    rw [hafter]
    exact List.forall_mem_singleton.mpr (List.nodup_append.mp hnodup).1
  case behind =>
    rw [hafter, hqueue]
    exact List.forall_mem_singleton.mpr fun d hd => h.behind g hg d (hmem hd)

/-- What goes back to the queue when a batch is over was in the batch. -/
theorem stocked_ended (h : s.Stocked) {g : Stage} {result : Except Failure Unit}
    {new : List Event} (hwaiting : g.waiting = [])
    (hqueue : t.intake.queue =
      (s.intake.retryAll (g.failed ++ failing g.current result)).1.queue)
    (hbefore : s.stages = [g]) (hafter : t.stages = []) (htrace : t.trace = s.trace ++ new) :
    t.Stocked := by
  refine ⟨hqueue ▸ own_retryAll h.own _, ?entered, ?failed, ?apart, ?behind⟩
  case entered =>
    intro c hc
    rw [held, hqueue, hafter, List.flatMap_nil, List.append_nil] at hc
    rw [htrace]
    refine List.mem_append_left _ ?_
    rcases mem_queue_retryAll hc with hc | ⟨d, hd, hsame⟩
    · exact h.entered_of_queue hc
    · -- What goes back differs from what failed by the count of its tries only.
      rw [hsame]
      exact h.entered_of_stage (hbefore ▸ List.mem_cons_self)
        ((Stage.last_perm hwaiting result).mem_iff.mpr (List.mem_append_left _ hd))
  case failed | apart | behind =>
    rw [hafter]
    exact fun _ hg => absurd hg List.not_mem_nil

theorem stocked_moves (h : s.Stocked) (hmoves : Moves s t) : t.Stocked := by
  cases hmoves with
  | nothing arrivals _ hqueue _ hstages htrace => exact stocked_nothing h hqueue hstages htrace
  | queued q arrivals _ hretries hnewer hqueue _ hstages htrace =>
    exact stocked_queued h hretries hnewer hqueue hstages htrace
  | taken calls rest hall hqueue _ _ hafter htrace =>
    exact stocked_taken h hall hqueue hafter htrace
  | returned g result c rest hwaiting hqueue _ hbefore hafter htrace =>
    exact stocked_returned h hwaiting hqueue hbefore hafter htrace
  | ended g result hwaiting hqueue _ hbefore hafter htrace =>
    exact stocked_ended h hwaiting hqueue hbefore hafter htrace

theorem withQueue_self (s : Session) : s.withQueue s.intake.queue = s := rfl

/-- Nothing is lost of this where the queue is cleared. -/
theorem Stocked.cleared {queue : OrderedMap String Change} (h : (t.withQueue queue).Stocked)
    (hempty : t.intake.queue = .empty) : t.Stocked := by
  refine ⟨?_, ?_, h.failed, h.apart, ?_⟩
  · intro path c hc
    rw [hempty] at hc
    cases hc
  · intro c hc
    rw [mem_held, hempty] at hc
    obtain hc | hc := hc
    · cases hc
    · exact h.entered c (mem_held.mpr (.inr hc))
  · intro g _ c _ d hd
    rw [hempty] at hd
    cases hd

theorem stocked_step (hkept : s.Kept) (h : s.Stocked) (a : Action) : (s.step a).Stocked := by
  obtain ⟨queue, hmoves, hsame | ⟨-, hclosed⟩⟩ := (step_moved hkept a).moves
  · rw [← hsame, withQueue_self] at hmoves
    exact stocked_moves h hmoves
  · exact (stocked_moves h hmoves).cleared hclosed.queue

theorem stocked_fresh (root : String) (options : Options) : (fresh root options).Stocked := by
  refine ⟨?_, ?_, ?_, ?_, ?_⟩
  · exact fun _ _ hc => nomatch hc
  · exact fun _ hc => nomatch hc
  · exact fun _ hg => nomatch hg
  · exact fun _ hg => nomatch hg
  · exact fun _ hg => nomatch hg

theorem stocked_run (hkept : s.Kept) (h : s.Stocked) (actions : List Action) :
    (s.run actions).Stocked := by
  induction actions generalizing s with
  | nil => exact h
  | cons a actions ih => exact ih (kept_step hkept a) (stocked_step hkept h a)

end Session

end LiveIndex.Intake
