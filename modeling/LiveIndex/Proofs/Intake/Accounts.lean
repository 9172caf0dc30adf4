import LiveIndex.Proofs.Intake.Held

/-! What has become of each change that was queued, also when the intake is ended: it is held, or
applied, or given up and counted, or a newer one of its path was queued, or it was in the queue that
the end of the intake cleared. -/

namespace LiveIndex.Intake

theorem nodup_origins {changes : List Change} (h : (changes.map Change.path).Nodup) :
    (changes.map Change.origin).Nodup := by
  refine List.Nodup.of_map Change.path ?_
  rwa [List.map_map]

theorem path_of_origin {c d : Change} (h : c.origin = d.origin) : c.path = d.path := by
  have hpath : c.origin.path = d.origin.path := congrArg Change.path h
  exact hpath

namespace Session

variable {s t : Session} {a : Action} {counted given : List Change} {lost : Change → Prop}

/-- What a move does to the account of the changes: those that are given up are counted, and every
other one that was held is held still, or applied, or overtaken. -/
structure Carries (s t : Session) (given : List Change) : Prop where
  missed : t.intake.missed = s.intake.missed + given.length
  once : (given.map Change.origin).Nodup
  left : ∀ c ∈ given, c.origin ∈ s.held.map Change.origin ∧ c.origin ∉ t.held.map Change.origin
  spent : ∀ c ∈ given, s.intake.options.maxRetries < (c.retries + 1 : Nat) ∧
    ∃ calls, .failed calls ∈ t.trace ∧ c ∈ calls
  kept : ∀ c ∈ s.held.map Change.origin,
    c ∈ (t.held ++ appliedIn t.trace ++ given).map Change.origin ∨ t.Overtaken c
  back : ∀ c ∈ t.held.map Change.origin, c ∈ s.held.map Change.origin ∨ .queued c ∉ s.trace
  fresh : ∀ c, .queued c ∈ t.trace → .queued c ∈ s.trace ∨ c ∈ t.held.map Change.origin

/-- A move that gives nothing up. -/
theorem carries_none (hmissed : t.intake.missed = s.intake.missed)
    (hkept : ∀ c ∈ s.held, c.origin ∈ (t.held ++ appliedIn t.trace).map Change.origin ∨
      t.Overtaken c.origin)
    (hback : ∀ c ∈ t.held, c.origin ∈ s.held.map Change.origin ∨ .queued c.origin ∉ s.trace)
    (hfresh : ∀ c, .queued c ∈ t.trace → .queued c ∈ s.trace ∨ c ∈ t.held.map Change.origin) :
    Carries s t [] := by
  refine ⟨hmissed, List.nodup_nil, ?_, ?_, ?_, ?_, hfresh⟩
  · exact fun _ hc => absurd hc List.not_mem_nil
  · exact fun _ hc => absurd hc List.not_mem_nil
  · intro c hc
    obtain ⟨d, hd, rfl⟩ := List.mem_map.mp hc
    rw [List.append_nil]
    exact hkept d hd
  · intro c hc
    obtain ⟨d, hd, rfl⟩ := List.mem_map.mp hc
    exact hback d hd

theorem not_queued_arrivals {arrivals : List Event}
    (h : ∀ e ∈ arrivals, ∃ n kind path, e = .arrived n kind path) (c : Change) :
    .queued c ∉ arrivals := by
  intro hc
  obtain ⟨n, kind, path, he⟩ := h _ hc
  cases he

/-- Nothing is queued by a move that adds nothing of the kind to the trace. -/
theorem fresh_of_append {new : List Event} (htrace : t.trace = s.trace ++ new)
    (hnone : ∀ c, .queued c ∉ new) (c : Change) (hc : .queued c ∈ t.trace) :
    .queued c ∈ s.trace ∨ c ∈ t.held.map Change.origin := by
  rw [htrace] at hc
  exact .inl ((List.mem_append.mp hc).resolve_right (hnone c))

theorem mem_origins {c : Change} {changes more : List Change} (hc : c ∈ changes) :
    c.origin ∈ (changes ++ more).map Change.origin :=
  List.mem_map_of_mem (List.mem_append_left _ hc)

/-- What an intake holds under a path in its queue is newer than what was queued of that path. -/
theorem carries_queued (h : s.Stocked) {q : Change} {arrivals : List Event}
    (harrivals : ∀ e ∈ arrivals, ∃ n kind path, e = .arrived n kind path) (hretries : q.retries = 0)
    (hnewer : ∀ c, .queued c ∈ s.trace → c.path = q.path → c.arrival < q.arrival)
    (hqueue : t.intake.queue = s.intake.queue.insert q.path q)
    (hmissed : t.intake.missed = s.intake.missed) (hstages : t.stages = s.stages)
    (htrace : t.trace = s.trace ++ arrivals ++ [.queued q]) : Carries s t [] := by
  have hnew : .queued q ∈ t.trace := by
    rw [htrace]
    exact List.mem_append_right _ List.mem_cons_self
  have hq : q ∈ t.held := by
    refine mem_held.mpr (.inl (OrderedMap.mem_values_iff.mpr ⟨q.path, ?_⟩))
    rw [hqueue, OrderedMap.get?_insert, if_pos rfl]
  refine carries_none hmissed ?_ ?_ ?_
  · intro c hc
    rcases mem_held.mp hc with hqueued | hstage
    · obtain ⟨path, hpath⟩ := OrderedMap.mem_values_iff.mp hqueued
      by_cases hsame : q.path = path
      · have hown := h.own path c hpath
        exact .inr ⟨q, hnew, hsame.trans hown.symm,
          hnewer c.origin (h.entered c hc) (hown.trans hsame.symm)⟩
      · refine .inl (mem_origins (mem_held.mpr (.inl (OrderedMap.mem_values_iff.mpr ⟨path, ?_⟩))))
        rw [hqueue, OrderedMap.get?_insert, if_neg hsame]
        exact hpath
    · exact .inl (mem_origins (mem_held.mpr (.inr (hstages ▸ hstage))))
  · intro c hc
    rw [mem_held, hqueue, hstages] at hc
    rcases hc with hqueued | hstage
    · rcases mem_values_insert hqueued with rfl | hqueued
      · refine .inr fun hold => ?_
        exact Nat.lt_irrefl _ (hnewer c.origin hold rfl)
      · exact .inl (List.mem_map_of_mem (mem_held.mpr (.inl hqueued)))
    · exact .inl (List.mem_map_of_mem (mem_held.mpr (.inr hstage)))
  · intro c hc
    rw [htrace] at hc
    rcases List.mem_append.mp hc with hc | hc
    · rcases List.mem_append.mp hc with hc | hc
      · exact .inl hc
      · exact absurd hc (not_queued_arrivals harrivals c)
    · cases List.mem_singleton.mp hc
      exact .inr (origin_of_fresh hretries ▸ List.mem_map_of_mem hq)

/-- What failed and is not given up is queued again, unless something newer of its path is there. -/
theorem Stocked.retried (h : s.Stocked) {g : Stage} (hg : g ∈ s.stages) {failed : List Change}
    (hin : failed ⊆ g.all) (hapart : (failed.map Change.path).Nodup)
    (hqueue : t.intake.queue = (s.intake.retryAll failed).1.queue) {new : List Event}
    (htrace : t.trace = s.trace ++ new) {c : Change} (hc : c ∈ failed)
    (hup : s.intake.givenUp c = false) :
    c.origin ∈ t.intake.queue.values.map Change.origin ∨ t.Overtaken c.origin := by
  have hthere : t.intake.queue.contains c.path = true := by
    rw [hqueue, contains_retryAll hapart hc, hup]
    rfl
  rw [OrderedMap.contains_eq_isSome] at hthere
  obtain ⟨d, hd⟩ := Option.isSome_iff_exists.mp hthere
  have hvalue := OrderedMap.mem_values_iff.mpr ⟨_, hd⟩
  rw [hqueue] at hd hvalue
  have hpath : d.path = c.path := own_retryAll h.own failed _ d hd
  rcases mem_queue_retryAll hvalue with hold | ⟨c', hc', hsame⟩
  · obtain ⟨path, hget⟩ := OrderedMap.mem_values_iff.mp hold
    rw [← h.own path d hget, hpath] at hget
    refine .inr ⟨d.origin, ?_, hpath, h.behind g hg c (hin hc) d hget⟩
    rw [htrace]
    exact List.mem_append_left _ (h.entered_of_queue hold)
  · -- Of one path there is one failed change.
    have hsame' : c' = c :=
      List.inj_on_of_nodup_map hapart hc' hc ((path_of_origin hsame).symm.trans hpath)
    rw [← hsame', ← hsame, hqueue]
    exact .inl (List.mem_map_of_mem hvalue)

/-- When a batch is over, what failed goes back to the queue, or is given up, or there is something
newer in the queue. -/
theorem carries_ended (h : s.Stocked) {g : Stage} {result : Except Failure Unit}
    (hwaiting : g.waiting = [])
    (hqueue : t.intake.queue =
      (s.intake.retryAll (g.failed ++ failing g.current result)).1.queue)
    (hmissed : t.intake.missed =
      (s.intake.retryAll (g.failed ++ failing g.current result)).1.missed)
    (hbefore : s.stages = [g]) (hafter : t.stages = [])
    (htrace : t.trace = s.trace ++ [.returned g.current result]) :
    Carries s t ((g.failed ++ failing g.current result).filter s.intake.givenUp) := by
  have hg : g ∈ s.stages := hbefore ▸ List.mem_cons_self
  have hspent {c : Change} (hc : c ∈ g.failed ++ failing g.current result) :
      ∃ calls, .failed calls ∈ t.trace ∧ c ∈ calls :=
    htrace ▸ exists_failed_of_returned (h.failed g hg) List.mem_cons_self hc
  have hall := Stage.last_perm hwaiting result
  have hapart := Stage.nodup_failed hwaiting (h.apart g hg) result
  obtain ⟨failed, hfailed⟩ : ∃ failed, failed = g.failed ++ failing g.current result := ⟨_, rfl⟩
  rw [← hfailed] at hqueue hmissed hspent hall hapart ⊢
  have hin : failed ⊆ g.all := fun c hc => hall.mem_iff.mpr (List.mem_append_left _ hc)
  have hbatch {c : Change} (hc : c ∈ failed) : c ∈ s.held := mem_held.mpr (.inr ⟨g, hg, hin hc⟩)
  have hheld : t.held = t.intake.queue.values := by
    rw [held, hafter, List.flatMap_nil, List.append_nil]
  refine ⟨?missed, ?once, ?left, ?spent, ?kept, ?back, ?fresh⟩
  case missed =>
    rw [hmissed]
    exact missed_retryAll hapart
  case once => exact nodup_origins (hapart.sublist (List.filter_sublist.map _))
  case left =>
    intro c hc
    obtain ⟨hc, hup⟩ := List.mem_filter.mp hc
    refine ⟨List.mem_map_of_mem (hbatch hc), fun hstill => ?_⟩
    -- Nothing of its path is queued any more.
    have hgone : t.intake.queue.contains c.path = false := by
      rw [hqueue, contains_retryAll hapart hc, hup]
      rfl
    rw [hheld] at hstill
    obtain ⟨d, hd, hsame⟩ := List.mem_map.mp hstill
    obtain ⟨path, hpath⟩ := OrderedMap.mem_values_iff.mp hd
    have hown : d.path = path := own_retryAll h.own failed path d (hqueue ▸ hpath)
    rw [← path_of_origin hsame, hown, OrderedMap.contains_eq_isSome, hpath] at hgone
    cases hgone
  case spent =>
    intro c hc
    obtain ⟨hc, hup⟩ := List.mem_filter.mp hc
    exact ⟨lt_of_givenUp hup, hspent hc⟩
  case kept =>
    intro c hc
    obtain ⟨d, hd, rfl⟩ := List.mem_map.mp hc
    simp only [List.append_assoc, List.map_append, List.mem_append, hheld]
    rw [held_of_stage hbefore] at hd
    rcases List.mem_append.mp hd with hd | hd
    · obtain ⟨path, hpath⟩ := OrderedMap.mem_values_iff.mp hd
      refine .inl (.inl (List.mem_map_of_mem (OrderedMap.mem_values_iff.mpr ⟨path, ?_⟩)))
      rw [hqueue]
      exact get?_retryAll hpath failed
    · -- What was in the batch has failed, or the call that returns has applied it.
      rcases List.mem_append.mp (hall.mem_iff.mp hd) with hd | hd
      · cases hup : s.intake.givenUp d with
        | true =>
          exact .inl (.inr (.inr (List.mem_map_of_mem (List.mem_filter.mpr ⟨hd, hup⟩))))
        | false => exact (h.retried hg hin hapart hqueue htrace hd hup).imp_left .inl
      · rw [htrace, appliedIn_append, appliedIn_returned]
        exact .inl (.inr (.inl (List.mem_map_of_mem (List.mem_append_right _ hd))))
  case back =>
    intro c hc
    obtain ⟨d, hd, rfl⟩ := List.mem_map.mp hc
    rw [hheld, hqueue] at hd
    rcases mem_queue_retryAll hd with hd | ⟨e, he, hsame⟩
    · exact .inl (List.mem_map_of_mem (mem_held.mpr (.inl hd)))
    · exact .inl (hsame ▸ List.mem_map_of_mem (hbatch he))
  case fresh =>
    exact fresh_of_append htrace fun c hc =>
      returned_ne_queued _ _ c (List.mem_singleton.mp hc).symm

theorem carries_taken {calls rest : List Change} (hall : (calls ++ rest).Perm s.intake.queue.values)
    (hqueue : t.intake.queue = .empty) (hmissed : t.intake.missed = s.intake.missed)
    (hnone : s.stages = []) (hafter : t.stages = [⟨rest, calls, []⟩])
    (htrace : t.trace = s.trace ++ [.begun, .handed calls]) : Carries s t [] := by
  have hheld := held_taken hall hqueue hnone hafter
  refine carries_none hmissed ?_ ?_ (fresh_of_append htrace (by simp))
  · exact fun c hc => .inl (mem_origins (hheld.mem_iff.mpr hc))
  · exact fun c hc => .inl (List.mem_map_of_mem (hheld.mem_iff.mp hc))

theorem carries_returned {g : Stage} {result : Except Failure Unit} {first : Change}
    {rest : List Change} (hwaiting : g.waiting = first :: rest)
    (hqueue : t.intake.queue = s.intake.queue) (hmissed : t.intake.missed = s.intake.missed)
    (hbefore : s.stages = [g])
    (hafter : t.stages = [⟨rest, [first], g.failed ++ failing g.current result⟩])
    (htrace : t.trace = s.trace ++ [.returned g.current result, .handed [first]]) :
    Carries s t [] := by
  have hheld := held_returned hwaiting result hqueue hbefore hafter
  have happlied : applying g.current result ⊆ appliedIn t.trace := by
    rw [htrace, appliedIn_handed]
    exact List.subset_append_right ..
  refine carries_none hmissed ?_ ?_ (fresh_of_append htrace ?_)
  · intro c hc
    refine .inl (List.mem_map_of_mem (List.mem_append.mpr ?_))
    exact (List.mem_append.mp (hheld.mem_iff.mp hc)).imp_right fun hc => happlied hc
  · exact fun c hc => .inl (List.mem_map_of_mem (hheld.mem_iff.mpr (List.mem_append_left _ hc)))
  · intro c hc
    rcases List.mem_cons.mp hc with hc | hc
    · exact returned_ne_queued _ _ c hc.symm
    · cases List.mem_singleton.mp hc

theorem carries_moves (h : s.Stocked) (hmoves : Moves s t) : ∃ given, Carries s t given := by
  cases hmoves with
  | nothing arrivals harrivals hqueue hmissed hstages htrace =>
    have hheld : t.held = s.held := by rw [held, held, hqueue, hstages]
    refine ⟨[], carries_none hmissed ?_ ?_
      (fresh_of_append htrace (not_queued_arrivals harrivals))⟩
    · exact fun c hc => .inl (mem_origins (hheld.symm ▸ hc))
    · exact fun c hc => .inl (List.mem_map_of_mem (hheld ▸ hc))
  | queued q arrivals harrivals hretries hnewer hqueue hmissed hstages htrace =>
    exact ⟨[], carries_queued h harrivals hretries hnewer hqueue hmissed hstages htrace⟩
  | taken calls rest hall hqueue hmissed hnone hafter htrace =>
    exact ⟨[], carries_taken hall hqueue hmissed hnone hafter htrace⟩
  | returned g result first rest hwaiting hqueue hmissed hbefore hafter htrace =>
    exact ⟨[], carries_returned hwaiting hqueue hmissed hbefore hafter htrace⟩
  | ended g result hwaiting hqueue hmissed hbefore hafter htrace =>
    exact ⟨_, carries_ended h hwaiting hqueue hmissed hbefore hafter htrace⟩

/-- An account of all changes that were queued. What was given up is counted; `lost` are changes of
which nothing is known. -/
structure Told (s : Session) (counted : List Change) (lost : Change → Prop) : Prop where
  missed : s.intake.missed = counted.length
  once : (counted.map Change.origin).Nodup
  left : ∀ c ∈ counted, c.origin ∉ s.held.map Change.origin
  queued : ∀ c ∈ counted, .queued c.origin ∈ s.trace
  spent : ∀ c ∈ counted, s.intake.options.maxRetries < (c.retries + 1 : Nat) ∧
    ∃ calls, .failed calls ∈ s.trace ∧ c ∈ calls
  all : ∀ c, .queued c ∈ s.trace →
    c ∈ (s.held ++ appliedIn s.trace ++ counted).map Change.origin ∨ s.Overtaken c ∨ lost c

theorem Overtaken.append {c : Change} {new : List Event} (h : s.Overtaken c)
    (htrace : t.trace = s.trace ++ new) : t.Overtaken c := by
  obtain ⟨q, hq, hpath, hnewer⟩ := h
  exact ⟨q, htrace ▸ List.mem_append_left _ hq, hpath, hnewer⟩

theorem Told.carry (hstocked : s.Stocked) (h : s.Told counted lost) (hcarries : Carries s t given)
    (hoptions : t.intake.options = s.intake.options) {new : List Event}
    (htrace : t.trace = s.trace ++ new) : t.Told (counted ++ given) lost := by
  have hgrows {e : Event} (he : e ∈ s.trace) : e ∈ t.trace := htrace ▸ List.mem_append_left _ he
  have hentered {c : Change} (hc : c ∈ s.held.map Change.origin) : .queued c ∈ s.trace := by
    obtain ⟨d, hd, rfl⟩ := List.mem_map.mp hc
    exact hstocked.entered d hd
  refine ⟨?_, ?_, ?_, ?_, ?_, ?_⟩
  · rw [hcarries.missed, h.missed, List.length_append]
  · rw [List.map_append]
    refine List.Nodup.append h.once hcarries.once ?_
    intro c hc hc'
    obtain ⟨d, hd, rfl⟩ := List.mem_map.mp hc
    obtain ⟨e, he, hsame⟩ := List.mem_map.mp hc'
    exact h.left d hd (hsame ▸ (hcarries.left e he).1)
  · intro c hc hheld
    rcases List.mem_append.mp hc with hc | hc
    · rcases hcarries.back _ hheld with hbefore | hnew
      · exact h.left c hc hbefore
      · exact hnew (h.queued c hc)
    · exact (hcarries.left c hc).2 hheld
  · intro c hc
    rcases List.mem_append.mp hc with hc | hc
    · exact hgrows (h.queued c hc)
    · exact hgrows (hentered (hcarries.left c hc).1)
  · intro c hc
    rw [hoptions]
    rcases List.mem_append.mp hc with hc | hc
    · obtain ⟨hlimit, calls, hcalls, hmem⟩ := h.spent c hc
      exact ⟨hlimit, calls, hgrows hcalls, hmem⟩
    · exact hcarries.spent c hc
  · intro c hc
    have happlied : appliedIn s.trace ⊆ appliedIn t.trace := by
      rw [htrace, appliedIn_append]
      exact List.subset_append_left ..
    rcases hcarries.fresh c hc with hold | hheld
    · rcases h.all c hold with hplace | hovertaken | hlost
      · simp only [List.map_append, List.mem_append] at hplace ⊢
        rcases hplace with (hheld | hin) | hin
        · have hkept := hcarries.kept c hheld
          simp only [List.map_append, List.mem_append] at hkept
          tauto
        · exact .inl (.inl (.inr (List.map_subset _ happlied hin)))
        · exact .inl (.inr (.inl hin))
      · exact .inr (.inl (hovertaken.append htrace))
      · exact .inr (.inr hlost)
    · refine .inl ?_
      simp only [List.map_append, List.mem_append]
      exact .inl (.inl hheld)

/-- Where the queue is cleared, what was in it is lost. -/
theorem Told.cleared {queue : OrderedMap String Change} {gone : Change → Prop}
    (h : (t.withQueue queue).Told counted lost) (hempty : t.intake.queue = .empty)
    (hgone : ∀ c ∈ queue.values.map Change.origin, .queued c ∈ t.trace → gone c)
    (hlost : ∀ c, lost c → gone c) : t.Told counted gone := by
  have hsub : t.held ⊆ (t.withQueue queue).held := by
    intro c hc
    rw [mem_held, hempty] at hc
    exact mem_held.mpr (.inr (hc.resolve_left nofun))
  refine ⟨h.missed, h.once, ?_, h.queued, h.spent, ?_⟩
  · exact fun c hc hheld => h.left c hc (List.map_subset _ hsub hheld)
  · intro c hc
    rcases h.all c hc with hplace | hovertaken | hwas
    · simp only [List.map_append, List.mem_append] at hplace ⊢
      rcases hplace with (hheld | hin) | hin
      · obtain ⟨d, hd, rfl⟩ := List.mem_map.mp hheld
        rcases mem_held.mp hd with hqueued | hstage
        · exact .inr (.inr (hgone _ (List.mem_map_of_mem hqueued) hc))
        · exact .inl (.inl (.inl (List.mem_map_of_mem (mem_held.mpr (.inr hstage)))))
      · exact .inl (.inl (.inr hin))
      · exact .inl (.inr hin)
    · exact .inr (.inl hovertaken)
    · exact .inr (.inr (hlost c hwas))

theorem Told.mono {gone : Change → Prop} (h : s.Told counted lost) (hlost : ∀ c, lost c → gone c) :
    s.Told counted gone :=
  ⟨h.missed, h.once, h.left, h.queued, h.spent,
    fun c hc => (h.all c hc).imp_right (Or.imp_right (hlost c))⟩

/-- A change that the intake held until a call that ended it was over. -/
def Drops (s : Session) (a : Action) (c : Change) : Prop :=
  s.Closing a ∧ c ∈ s.held.map Change.origin ∧ c ∉ (s.step a).held.map Change.origin

/-- A change that was dropped some time by a call that ended the intake. -/
def DroppedIn (c : Change) : Session → List Action → Prop
  | _, [] => False
  | s, a :: rest => s.Drops a c ∨ DroppedIn c (s.step a) rest

/-- Nothing is queued in the step in which a call that ends the intake is over. -/
theorem queued_of_closing (h : s.Kept) (hclosing : s.Closing a) {c : Change}
    (hc : .queued c ∈ (s.step a).trace) : .queued c ∈ s.trace := by
  obtain ⟨f, work, result, hdoes, hpurpose, -⟩ := hclosing
  obtain ⟨-, hnoted⟩ := noted_of_purpose h hdoes.doing hpurpose
  exact (queued_noted hc).resolve_right (hnoted c)

/-- What is in the queue is not in the batch that is applied. -/
theorem Stocked.apart_queue (h : s.Stocked) {c d : Change} (hc : c ∈ s.intake.queue.values)
    {g : Stage} (hg : g ∈ s.stages) (hd : d ∈ g.all) : c.origin ≠ d.origin := by
  intro hsame
  obtain ⟨path, hpath⟩ := OrderedMap.mem_values_iff.mp hc
  rw [← h.own path c hpath, path_of_origin hsame] at hpath
  have harrival : c.origin.arrival = d.origin.arrival := congrArg Change.arrival hsame
  exact Nat.ne_of_gt (h.behind g hg d hd c hpath) harrival

theorem told_step (hkept : s.Kept) (hstocked : s.Stocked) (h : s.Told counted lost) (a : Action) :
    ∃ given, (s.step a).Told (counted ++ given) fun c => lost c ∨ s.Drops a c := by
  obtain ⟨new, htrace, -⟩ := s.step_trace a
  have hmoved := step_moved hkept a
  obtain ⟨queue, hmoves, hsame | ⟨hclosing, hclosed⟩⟩ := hmoved.moves
  · rw [← hsame, withQueue_self] at hmoves
    obtain ⟨given, hcarries⟩ := carries_moves hstocked hmoves
    exact ⟨given, (h.carry hstocked hcarries hmoved.options htrace).mono fun _ => .inl⟩
  · obtain ⟨given, hcarries⟩ := carries_moves hstocked hmoves
    have htold : ((s.step a).withQueue queue).Told (counted ++ given) lost :=
      h.carry hstocked hcarries hmoved.options htrace
    refine ⟨given, htold.cleared hclosed.queue ?_ fun _ => .inl⟩
    intro c hc hqueued
    obtain ⟨d, hd, rfl⟩ := List.mem_map.mp hc
    have hheld : d.origin ∈ ((s.step a).withQueue queue).held.map Change.origin :=
      List.mem_map_of_mem (mem_held.mpr (.inl hd))
    refine .inr ⟨hclosing, (hcarries.back _ hheld).resolve_right ?_, ?_⟩
    · exact not_not.mpr (queued_of_closing hkept hclosing hqueued)
    · intro hstill
      obtain ⟨e, he, hsame⟩ := List.mem_map.mp hstill
      rw [mem_held, hclosed.queue] at he
      obtain ⟨g, hg, he⟩ := he.resolve_left nofun
      exact (stocked_moves hstocked hmoves).apart_queue hd hg he hsame.symm

theorem told_run (hkept : s.Kept) (hstocked : s.Stocked) (h : s.Told counted lost)
    (actions : List Action) :
    ∃ more, (s.run actions).Told more fun c => lost c ∨ DroppedIn c s actions := by
  induction actions generalizing s counted lost with
  | nil => exact ⟨counted, h.mono fun _ => .inl⟩
  | cons a actions ih =>
    obtain ⟨given, hstep⟩ := told_step hkept hstocked h a
    obtain ⟨more, hrun⟩ := ih (kept_step hkept a) (stocked_step hkept hstocked a) hstep
    exact ⟨more, hrun.mono fun _ => or_assoc.mp⟩

theorem told_fresh (root : String) (options : Options) :
    (fresh root options).Told [] fun _ => False :=
  ⟨rfl, List.nodup_nil, fun _ hc => absurd hc List.not_mem_nil,
    fun _ hc => absurd hc List.not_mem_nil, fun _ hc => absurd hc List.not_mem_nil,
    fun _ hc => absurd hc List.not_mem_nil⟩

end Session

end LiveIndex.Intake
