import LiveIndex.Proofs.Intake.Accounts
import LiveIndex.Proofs.Intake.Barrier
import LiveIndex.Proofs.Intake.Closing

/-! How an intake is ended. The call that ends it takes what is queued as a last batch, and what
fails there is dropped with the queue. From then on the intake holds nothing and hands nothing
over. -/

namespace LiveIndex.Intake

/-- An intake that was ended and applies nothing. -/
structure Inert (ix : Intake) : Prop where
  closed : Closed ix
  idle : ix.processing = false

namespace Session

variable {s t : Session} {a : Action} {f : Option Flight} {work : Work} {c : Change} {id : Nat}

/-- What applies nothing has no batch that could go on. -/
theorem idle_of_inert (hkept : s.Kept) (h : s.intake.Inert) (hdoing : s.Doing a f work) :
    ∀ g ∈ f, g.stage? = none := by
  rintro g hgoes
  obtain rfl := Option.mem_def.mp hgoes
  obtain ⟨id, hg⟩ := hdoing.found?
  cases hstage : g.stage? with
  | none => rfl
  | some stage =>
    have hmem : stage ∈ s.stages :=
      List.mem_filterMap.mpr ⟨g, List.mem_of_find?_eq_some hg, hstage⟩
    rw [hkept.stages_of_idle h.idle] at hmem
    cases hmem

/-- An intake that has ended stays as it is, whatever happens. -/
theorem inert_step (hkept : s.Kept) (hwoken : s.Woken) (h : s.intake.Inert) (a : Action) :
    (s.step a).intake.Inert ∧ (s.step a).trace = s.trace := by
  obtain ⟨hquiet, hgather⟩ := timers_of_closed hwoken.wound h.closed
  obtain ⟨t, ht⟩ : ∃ t, t = s.step a := ⟨_, rfl⟩
  have hstepped := s.step_stepped a
  rw [← ht] at hstepped ⊢
  cases hstepped with
  | same => exact ⟨h, rfl⟩
  | quiet _ hmem =>
    rw [hquiet] at hmem
    cases hmem
  | gather _ hmem =>
    rw [hgather] at hmem
    cases hmem
  | works hdoes =>
    obtain ⟨hstays, hnoted⟩ := hdoes.doing.stays hkept h.closed (idle_of_inert hkept h hdoes.doing)
    have hidle := hstays.processing.trans h.idle
    refine ⟨(advance_intake ..).symm ▸ ⟨hstays.closed, hidle⟩, ?_⟩
    rw [advance_trace, ready_trace, ready_intake, hnoted, hstays.events, List.append_nil,
      List.append_nil, beginning, hidle, Bool.false_and]
    exact List.append_nil _

theorem inert_run (hkept : s.Kept) (hwoken : s.Woken) (h : s.intake.Inert)
    (actions : List Action) :
    (s.run actions).intake.Inert ∧ (s.run actions).trace = s.trace := by
  induction actions generalizing s with
  | nil => exact ⟨h, rfl⟩
  | cons a actions ih =>
    obtain ⟨hinert, htrace⟩ := inert_step hkept hwoken h a
    obtain ⟨hlater, htrace'⟩ := ih (kept_step hkept a) (woken_step hkept hwoken a) hinert
    exact ⟨hlater, htrace'.trans htrace⟩

/-- A call that ends the intake is applying its batch. -/
def Applying (s : Session) (id : Nat) : Prop :=
  ∃ g ∈ s.flights, g.id = id ∧ g.purpose? = some .destroy ∧ ∃ stage, g.stage? = some stage

/-- The batch of a call that ends the intake is the last one. `T` is the trace when the call was
made; nothing of that time is queued any more. -/
structure Finishing (s : Session) (id : Nat) (T : List Event) : Prop where
  applying : s.Applying id
  newer : ∀ c ∈ s.intake.queue.values, ∀ q, .queued q ∈ T → q.path = c.path →
    q.arrival < c.arrival
  last : ∃ first later, s.trace = T ++ first ++ .begun :: later ∧ .begun ∉ later ∧
    ∀ g ∈ s.stages, ∀ c ∈ g.failed, ∃ calls, .failed calls ∈ later ∧ c ∈ calls

/-- A change of which a call failed in the last batch, with tries left. That batch began after
`T`. -/
def FailedLast (s : Session) (T : List Event) (c : Change) : Prop :=
  ∃ first later, s.trace = T ++ first ++ .begun :: later ∧ .begun ∉ later ∧
    ∃ calls d, .failed calls ∈ later ∧ d ∈ calls ∧ d.origin = c ∧
      ((d.retries + 1 : Nat) : Int) ≤ s.intake.options.maxRetries

variable {T : List Event} {counted : List Change} {lost : Change → Prop}

/-- A call that applies a batch goes on with it until it is over. -/
theorem Doing.over_or_applies {g : Flight} (hdoing : s.Doing a (some g) work) {stage : Stage}
    (hstage : g.stage? = some stage) :
    (∃ result, work.turn = .done result) ∨ ∃ next, stageAfter work.turn = some next := by
  have hnext (ix : Intake) (round : Round) : (∃ result, (ix.nextRemoval round).turn = .done result) ∨
      ∃ next, stageAfter (ix.nextRemoval round).turn = some next := by
    unfold nextRemoval
    split
    · refine .inl ⟨.ok (), ?_⟩
      unfold roundOver
      dsimp only
      split <;> exact conclude_done ..
    · exact .inr ⟨_, rfl⟩
  cases hdoing with
  | found hf hwaiting result =>
    rw [Flight.stage?, hwaiting] at hstage
    cases hstage
  | stored hf hwaiting result => cases result <;> exact hnext ..
  | removed hf hwaiting result => cases result <;> exact hnext ..
  | joined hf hwaiting =>
    rw [Flight.stage?, hwaiting] at hstage
    cases hstage

/-- When the last batch is over the intake has ended. -/
theorem applying_step (hkept : s.Kept) (h : s.Applying id) (a : Action) :
    (s.step a).Applying id ∨ s.Closing a ∧ (s.step a).intake.Inert := by
  obtain ⟨g, hg, hid, hpurpose, stage, hstage⟩ := h
  rcases s.winding_or_works a with hwinds | ⟨f, work, hdoes, hstep⟩
  · exact .inl ⟨g, hwinds.flights ▸ hg, hid, hpurpose, stage, hstage⟩
  · have hflights := advance_flights (s.ready a f) (s.idOf f) (ticketOf a f) work
    rw [← hstep, ready_flights] at hflights
    by_cases hgoes : g ∈ f
    · obtain rfl := Option.mem_def.mp hgoes
      obtain ⟨purpose, hsome, hacts⟩ | ⟨hnone, -⟩ := hdoes.doing.acts_or_admits hkept
      · obtain rfl : purpose = .destroy := Option.some.inj (hsome.symm.trans hpurpose)
        rcases hdoes.doing.over_or_applies hstage with ⟨result, hturn⟩ | ⟨next, hnext⟩
        · refine .inr ⟨⟨_, work, result, hdoes, hpurpose, hturn⟩, ?_, ?_⟩
          · rw [hstep, advance_intake]
            exact (hacts.ends result hturn).2
          · refine (kept_step hkept a).idle ?_
            obtain ⟨-, hothers, -⟩ := (ready_stages hkept hdoes.doing).2 g rfl stage hstage
            rw [hstep, advance_stages, hothers, hturn]
            rfl
        · obtain ⟨g', hg', hsame, hstage'⟩ := flight_of_stageAfter (s.idOf (some g))
            (ticketOf a (some g)) hnext
          have hwaits := (hacts.waits _ _ (mem_flightsAfter hg').2.2).1
          exact .inl ⟨g', hflights ▸ List.mem_append_right _ hg', hsame.trans hid, hwaits, next,
            hstage'⟩
      · cases hnone.symm.trans hpurpose
    · refine .inl ⟨g, ?_, hid, hpurpose, stage, hstage⟩
      rw [hflights]
      exact List.mem_append_left _ (mem_others hdoes.doing hg hgoes)

theorem stages_of_applying (h : s.Applying id) : s.stages ≠ [] := by
  obtain ⟨g, hg, -, -, stage, hstage⟩ := h
  exact List.ne_nil_of_mem (List.mem_filterMap.mpr ⟨g, hg, hstage⟩)

theorem Finishing.grown (h : s.Finishing id T) {e : Event} (he : e ∈ T) : e ∈ s.trace := by
  obtain ⟨first, later, htrace, -⟩ := h.last
  rw [htrace]
  exact List.mem_append_left _ (List.mem_append_left _ he)

theorem finishing_moves (h : s.Finishing id T) (hmoves : Moves s t) (happlying : t.Applying id) :
    t.Finishing id T := by
  obtain ⟨first, later, htrace, hlast, hfailed⟩ := h.last
  have hgrows {new : List Event} (hnew : t.trace = s.trace ++ new) :
      t.trace = T ++ first ++ .begun :: (later ++ new) := by
    rw [hnew, htrace, List.append_assoc]
    rfl
  have hnobegun {new : List Event} (hnone : .begun ∉ new) : .begun ∉ later ++ new :=
    fun he => (List.mem_append.mp he).elim hlast hnone
  have hstill {new : List Event} (hstages : t.stages = s.stages) : ∀ g ∈ t.stages, ∀ c ∈ g.failed,
      ∃ calls, .failed calls ∈ later ++ new ∧ c ∈ calls := by
    intro g hg c hc
    obtain ⟨calls, hcalls, hmem⟩ := hfailed g (hstages ▸ hg) c hc
    exact ⟨calls, List.mem_append_left _ hcalls, hmem⟩
  have harrived {arrivals : List Event}
      (harrivals : ∀ e ∈ arrivals, ∃ n kind path, e = .arrived n kind path) : .begun ∉ arrivals := by
    intro he
    obtain ⟨n, kind, path, he⟩ := harrivals _ he
    cases he
  cases hmoves with
  | nothing arrivals harrivals hqueue _ hstages hnew =>
    exact ⟨happlying, hqueue ▸ h.newer, first, _, hgrows hnew, hnobegun (harrived harrivals),
      hstill hstages⟩
  | queued q arrivals harrivals _ hnewer hqueue _ hstages hnew =>
    rw [List.append_assoc] at hnew
    refine ⟨happlying, ?_, first, _, hgrows hnew, hnobegun ?_, hstill hstages⟩
    · intro c hc q' hq' hpath
      rw [hqueue] at hc
      rcases mem_values_insert hc with rfl | hc
      · exact hnewer q' (h.grown hq') hpath
      · exact h.newer c hc q' hq' hpath
    · intro he
      rcases List.mem_append.mp he with he | he
      · exact harrived harrivals he
      · cases List.mem_singleton.mp he
  | taken calls rest _ _ _ hnone _ _ => exact absurd hnone (stages_of_applying h.applying)
  | returned g result c rest _ hqueue _ hbefore hafter hnew =>
    refine ⟨happlying, hqueue ▸ h.newer, first, _, hgrows hnew, hnobegun ?_, ?_⟩
    · cases result <;> simp [Event.returned]
    · rw [hafter]
      exact List.forall_mem_singleton.mpr fun _ hd =>
        exists_failed_of_returned (hfailed g (hbefore ▸ List.mem_cons_self)) List.mem_cons_self hd
  | ended _ _ _ _ _ _ hafter _ => exact absurd hafter (stages_of_applying happlying)

/-- What would be queued again at the end of the last batch has failed there with tries left, or is
newer than the call that ends the intake. -/
theorem failedLast_of_ended (hstocked : s.Stocked) (h : s.Finishing id T)
    {queue : OrderedMap String Change} (hmoves : Moves s (t.withQueue queue))
    (hoptions : t.intake.options = s.intake.options) (hnone : t.stages = []) (hc : c ∈ queue.values) :
    .queued c.origin ∉ T ∨ t.FailedLast T c.origin := by
  have hne := stages_of_applying h.applying
  have hnone : (t.withQueue queue).stages = [] := hnone
  cases hmoves with
  | nothing _ _ _ _ hstages _ => exact absurd (hstages.symm.trans hnone) hne
  | queued _ _ _ _ _ _ _ hstages _ => exact absurd (hstages.symm.trans hnone) hne
  | taken _ _ _ _ _ hidle _ _ => exact absurd hidle hne
  | returned _ _ _ _ _ _ _ _ hafter _ => cases hafter.symm.trans hnone
  | ended g result hwaiting hqueue _ hbefore _ hnew =>
    have hg : g ∈ s.stages := hbefore ▸ List.mem_cons_self
    have hvalues : queue.values = _ := (congrArg OrderedMap.values hqueue).trans
      (values_retryAll (Stage.nodup_failed hwaiting (hstocked.apart g hg) result))
    rw [hvalues] at hc
    rcases List.mem_append.mp hc with hc | hc
    · exact .inl fun hq => Nat.lt_irrefl _ (h.newer c hc c.origin hq rfl)
    · obtain ⟨d, hd, rfl⟩ := List.mem_map.mp hc
      obtain ⟨hd, hback⟩ := List.mem_filter.mp hd
      obtain ⟨first, later, htrace, hlast, hfailed⟩ := h.last
      refine .inr ⟨first, later ++ [.returned g.current result], ?_, ?_, ?_⟩
      · have hnew : t.trace = s.trace ++ [.returned g.current result] := hnew
        rw [hnew, htrace, List.append_assoc]
        rfl
      · intro he
        rcases List.mem_append.mp he with he | he
        · exact hlast he
        · cases result <;> cases List.mem_singleton.mp he
      · have hleft : ((d.retries + 1 : Nat) : Int) ≤ t.intake.options.maxRetries :=
          hoptions ▸ again_le_of_goesBack hback
        obtain ⟨calls, hcalls, hmem⟩ :=
          exists_failed_of_returned (hfailed g hg) List.mem_cons_self hd
        exact ⟨calls, d, hcalls, hmem, rfl, hleft⟩

/-- While the last batch is applied, nothing is lost of what was queued before. When it is over,
that is lost which failed there with tries left. -/
theorem finishing_step (hkept : s.Kept) (hstocked : s.Stocked) (h : s.Finishing id T)
    (htold : s.Told counted fun c => lost c ∨ .queued c ∉ T) (a : Action) :
    ((s.step a).Finishing id T ∧
        ∃ more, (s.step a).Told more fun c => lost c ∨ .queued c ∉ T) ∨
      (s.step a).intake.Inert ∧ ∃ more, (s.step a).Told more fun c =>
        lost c ∨ .queued c ∉ T ∨ (s.step a).FailedLast T c := by
  obtain ⟨new, htrace, -⟩ := s.step_trace a
  have hmoved := step_moved hkept a
  obtain ⟨queue, hmoves, hqueue⟩ := hmoved.moves
  obtain ⟨given, hcarries⟩ := carries_moves hstocked hmoves
  have hcarried : ((s.step a).withQueue queue).Told (counted ++ given) _ :=
    htold.carry hstocked hcarries hmoved.options htrace
  rcases applying_step hkept h.applying a with happlying | ⟨-, hinert⟩
  · refine .inl ?_
    have hfinishing : ((s.step a).withQueue queue).Finishing id T :=
      finishing_moves h hmoves happlying
    rcases hqueue with hsame | ⟨-, hclosed⟩
    · rw [← hsame, withQueue_self] at hfinishing hcarried
      exact ⟨hfinishing, _, hcarried⟩
    · -- Another call has cleared the queue, where nothing of that time was.
      refine ⟨⟨happlying, ?_, hfinishing.last⟩, _,
        hcarried.cleared hclosed.queue ?_ fun _ hlost => hlost⟩
      · intro c hc
        rw [hclosed.queue] at hc
        cases hc
      · intro c hc _
        obtain ⟨d, hd, rfl⟩ := List.mem_map.mp hc
        exact .inr fun hq => Nat.lt_irrefl _ (hfinishing.newer d hd d.origin hq rfl)
  · have hnone := (kept_step hkept a).stages_of_idle hinert.idle
    refine .inr ⟨hinert, _, hcarried.cleared hinert.closed.queue ?_ ?_⟩
    · intro c hc _
      obtain ⟨d, hd, rfl⟩ := List.mem_map.mp hc
      exact .inr (failedLast_of_ended hstocked h hmoves hmoved.options hnone hd)
    · exact fun c hlost => hlost.imp_right .inl

/-- The intake has ended, and of what was queued before that is lost which failed in the last batch
with tries left. -/
def Ended (s : Session) (T : List Event) (lost : Change → Prop) : Prop :=
  s.intake.Inert ∧ ∃ counted, s.Told counted fun c => lost c ∨ .queued c ∉ T ∨ s.FailedLast T c

/-- Once an intake has ended the account of the changes stays the same. -/
theorem ended_step (hkept : s.Kept) (hwoken : s.Woken) (hstocked : s.Stocked)
    (h : s.Ended T lost) (a : Action) : (s.step a).Ended T lost := by
  obtain ⟨hinert, counted, htold⟩ := h
  obtain ⟨hlater, htrace⟩ := inert_step hkept hwoken hinert a
  obtain ⟨given, htold⟩ := told_step hkept hstocked htold a
  refine ⟨hlater, _, htold.mono ?_⟩
  rintro c ((hlost | hnew | hfailed) | ⟨-, hheld, -⟩)
  · exact .inl hlost
  · exact .inr (.inl hnew)
  · obtain ⟨first, later, hlast, hnobegun, calls, d, hcalls, hd, hsame, hleft⟩ := hfailed
    have hoptions := (step_moved hkept a).options
    exact .inr (.inr ⟨first, later, htrace.trans hlast, hnobegun, calls, d, hcalls, hd, hsame,
      hoptions ▸ hleft⟩)
  · -- An ended intake holds nothing that could be dropped.
    rw [held_eq_nil (congrArg OrderedMap.values hinert.closed.queue)
      (hkept.stages_of_idle hinert.idle)] at hheld
    cases hheld

/-- A batch that a call takes to end the intake is the last one, and nothing is lost with it. -/
theorem finishing_of_taken (hkept : s.Kept) (hstocked : s.Stocked) (hnone : s.stages = [])
    (happlying : (s.step a).Applying id) {first : List Event} (htrace : s.trace = T ++ first)
    (htold : s.Told counted fun c => lost c ∨ .queued c ∉ T) :
    (s.step a).Finishing id T ∧ ∃ more, (s.step a).Told more fun c => lost c ∨ .queued c ∉ T := by
  obtain ⟨new, hnew, -⟩ := s.step_trace a
  have hmoved := step_moved hkept a
  obtain ⟨queue, hmoves, hqueue⟩ := hmoved.moves
  obtain ⟨given, hcarries⟩ := carries_moves hstocked hmoves
  have hcarried : ((s.step a).withQueue queue).Told (counted ++ given) _ :=
    htold.carry hstocked hcarries hmoved.options hnew
  have hsome : ((s.step a).withQueue queue).stages ≠ s.stages := by
    rw [hnone]
    exact stages_of_applying happlying
  cases hmoves with
  | nothing _ _ _ _ hstages _ => exact absurd hstages hsome
  | queued _ _ _ _ _ _ _ hstages _ => exact absurd hstages hsome
  | returned _ _ _ _ _ _ _ hbefore _ _ => cases hbefore.symm.trans hnone
  | ended _ _ _ _ _ hbefore _ _ => cases hbefore.symm.trans hnone
  | taken calls rest _ hclear _ _ hstages hnew =>
    have hclear : queue = .empty := hclear
    have hcleared : (s.step a).intake.queue = queue :=
      hqueue.elim (fun hsame => hsame) fun hclosed => hclosed.2.queue.trans hclear.symm
    have hstages : (s.step a).stages = [⟨rest, calls, []⟩] := hstages
    have hnew : (s.step a).trace = s.trace ++ [.begun, .handed calls] := hnew
    rw [← hcleared, withQueue_self] at hcarried
    refine ⟨⟨happlying, ?_, first, [.handed calls], ?_, ?_, ?_⟩, _, hcarried⟩
    · rw [hcleared, hclear]
      exact fun _ hc => absurd hc List.not_mem_nil
    · rw [hnew, htrace]
    · simp
    · rw [hstages]
      exact List.forall_mem_singleton.mpr fun _ hc => absurd hc List.not_mem_nil

/-- A call that ends the intake and has its turn takes all that is queued as the last batch, or the
intake ends at once. -/
theorem turn_step (hkept : s.Kept) (hstocked : s.Stocked) (hturn : s.HasTurn id a)
    (hidle : s.intake.processing = false) (hends : ∀ f work, s.Does a f work →
      purposeOf a f = some .destroy) {first : List Event} (htrace : s.trace = T ++ first)
    (htold : s.Told counted fun c => lost c ∨ .queued c ∉ T) :
    ((s.step a).Finishing id T ∧
        ∃ more, (s.step a).Told more fun c => lost c ∨ .queued c ∉ T) ∨
      (s.step a).Ended T lost := by
  obtain ⟨f, work, purpose, hdoes, hid, hstep, hpurpose, hwork⟩ := hturn.works hkept hidle
  obtain rfl : purpose = .destroy := Option.some.inj (hpurpose.symm.trans (hends f work hdoes))
  have hacts : Acts s.intake .destroy work := by
    obtain ⟨purpose, hsome, hacts⟩ | ⟨hnone, -⟩ := hdoes.doing.acts_or_admits hkept
    · cases hpurpose.symm.trans hsome
      exact hacts
    · cases hpurpose.symm.trans hnone
  have hnone := hkept.stages_of_idle hidle
  have hready : (s.ready a f).stages = [] := by
    obtain ⟨hsame, hbusy⟩ := ready_stages hkept hdoes.doing
    refine (hsame fun g hg => ?_).trans hnone
    by_contra hstage
    obtain ⟨stage, hstage⟩ := Option.ne_none_iff_exists'.mp hstage
    cases hidle.symm.trans (hbusy g hg stage hstage).2.2
  have hafter := advance_stages (s.ready a f) (s.idOf f) (ticketOf a f) work
  rw [← hstep, hready, List.nil_append] at hafter
  rcases hwork with ⟨hempty, hturn⟩ | ⟨calls, rest, -, hstage⟩
  · rw [hturn] at hafter
    refine .inr ⟨⟨?_, (kept_step hkept a).idle hafter⟩, ?_⟩
    · rw [hstep, advance_intake]
      exact (hacts.ends _ hturn).2
    · obtain ⟨given, htold⟩ := told_step hkept hstocked htold a
      refine ⟨_, htold.mono ?_⟩
      rintro c (hlost | ⟨-, hheld, -⟩)
      · exact hlost.imp_right .inl
      · -- There was nothing that could be dropped.
        have hvalues : s.intake.queue.values = [] := by
          rw [OrderedMap.values, List.isEmpty_iff.mp hempty]
          rfl
        rw [held_eq_nil hvalues hnone] at hheld
        cases hheld
  · refine .inl (finishing_of_taken hkept hstocked hnone ?_ htrace htold)
    obtain ⟨g, hg, hsame, hstage⟩ := flight_of_stageAfter (s.idOf f) (ticketOf a f) hstage
    have hwaits := (hacts.waits _ _ (mem_flightsAfter hg).2.2).1
    refine ⟨g, ?_, hsame.trans hid, hwaits, _, hstage⟩
    rw [hstep, advance_flights]
    exact List.mem_append_right _ hg

theorem ended_run (hkept : s.Kept) (hwoken : s.Woken) (hstocked : s.Stocked)
    (h : s.Ended T lost) (actions : List Action) : (s.run actions).Ended T lost := by
  induction actions generalizing s with
  | nil => exact h
  | cons a actions ih =>
    exact ih (kept_step hkept a) (woken_step hkept hwoken a) (stocked_step hkept hstocked a)
      (ended_step hkept hwoken hstocked h a)

theorem finishing_run (hkept : s.Kept) (hwoken : s.Woken) (hstocked : s.Stocked)
    (h : s.Finishing id T) (htold : s.Told counted fun c => lost c ∨ .queued c ∉ T)
    (actions : List Action) : (s.run actions).Applying id ∨ (s.run actions).Ended T lost := by
  induction actions generalizing s counted with
  | nil => exact .inl h.applying
  | cons a actions ih =>
    have hkept' := kept_step hkept a
    have hwoken' := woken_step hkept hwoken a
    have hstocked' := stocked_step hkept hstocked a
    rcases finishing_step hkept hstocked h htold a with ⟨hgoes, more, htold'⟩ | hended
    · exact ih hkept' hwoken' hstocked' hgoes htold'
    · exact .inr (ended_run hkept' hwoken' hstocked' hended actions)

/-- What a call that ends the intake comes to after its turn. -/
theorem ends_after_turn (hkept : s.Kept) (hwoken : s.Woken) (hstocked : s.Stocked)
    (hturn : s.HasTurn id a) (hidle : s.intake.processing = false)
    (hends : ∀ f work, s.Does a f work → purposeOf a f = some .destroy) {first : List Event}
    (htrace : s.trace = T ++ first) (htold : s.Told counted fun c => lost c ∨ .queued c ∉ T)
    (actions : List Action) :
    ((s.step a).run actions).Applying id ∨ ((s.step a).run actions).Ended T lost := by
  have hkept' := kept_step hkept a
  have hwoken' := woken_step hkept hwoken a
  have hstocked' := stocked_step hkept hstocked a
  rcases turn_step hkept hstocked hturn hidle hends htrace htold with
    ⟨hfinishing, more, htold'⟩ | hended
  · exact finishing_run hkept' hwoken' hstocked' hfinishing htold' actions
  · exact .inr (ended_run hkept' hwoken' hstocked' hended actions)

/-- A call that waits for a batch to end the intake loses nothing until it has its turn. -/
theorem waiting_run (hkept : s.Kept) (hwoken : s.Woken) (hstocked : s.Stocked) {g : Flight}
    (hg : g ∈ s.flights) {ticket : Nat} (hrequest : g.request = .batch ticket)
    (hpurpose : g.purpose? = some .destroy) {first : List Event} (htrace : s.trace = T ++ first)
    (htold : s.Told counted fun c => lost c ∨ .queued c ∉ T) {actions : List Action}
    (hclear : Unhindered g.id s actions) : g ∈ (s.run actions).flights ∨
      (s.run actions).Applying g.id ∨ (s.run actions).Ended T lost := by
  induction actions generalizing s counted first with
  | nil => exact .inl hg
  | cons a actions ih =>
    obtain ⟨hidle, hrest⟩ := hclear
    by_cases hturn : s.HasTurn g.id a
    · refine .inr (ends_after_turn hkept hwoken hstocked hturn (hidle hturn) ?_ htrace htold actions)
      rintro f work ⟨hdoing, -, -⟩
      rcases hturn with ⟨-, hid, -⟩ | ⟨rfl, -⟩
      · exact absurd (hkept.known g hg) (by rw [hid]; exact Nat.lt_irrefl _)
      · cases hdoing with
        | joined hf hwaiting =>
          cases (find?_of_nodup hkept.ids hg).symm.trans hf
          exact hpurpose
    · obtain ⟨hopen, hrest⟩ := hrest hturn
      obtain ⟨new, hnew, -⟩ := s.step_trace a
      obtain ⟨given, htold'⟩ := told_step hkept hstocked htold a
      have hnext : (s.step a).trace = T ++ (first ++ new) := by
        rw [hnew, htrace, List.append_assoc]
      exact ih (kept_step hkept a) (woken_step hkept hwoken a) (stocked_step hkept hstocked a)
        (joining_step hkept hg hrequest hturn) hnext
        (htold'.mono fun c hlost => hlost.resolve_right fun hdrops => hopen hdrops.1) hrest

/-- A call that ends the intake, with nothing in its way, has ended it when it is over. -/
theorem ended_of_unhindered (hkept : s.Kept) (hwoken : s.Woken) (hstocked : s.Stocked)
    (htold : s.Told counted lost) {after : List Action}
    (hclear : Unhindered s.nextId s (.begin .destroy :: after))
    (hover : (s.nextId, .ok ()) ∈ (s.run (.begin .destroy :: after)).answers) :
    (s.run (.begin .destroy :: after)).Ended s.trace lost := by
  have htold : s.Told counted fun c => lost c ∨ .queued c ∉ s.trace := htold.mono fun _ => .inl
  -- A call that has answered waits for nothing.
  have hgone : ∀ g ∈ (s.run (.begin .destroy :: after)).flights, g.id ≠ s.nextId :=
    ((kept_run hkept _).answered _ hover).2
  have happlying (h : (s.run (.begin .destroy :: after)).Applying s.nextId ∨
      (s.run (.begin .destroy :: after)).Ended s.trace lost) :
      (s.run (.begin .destroy :: after)).Ended s.trace lost :=
    h.resolve_left fun ⟨g, hg, hid, _⟩ => hgone g hg hid
  obtain ⟨hidle, hrest⟩ := hclear
  by_cases hturn : s.HasTurn s.nextId (.begin .destroy)
  · refine happlying (ends_after_turn hkept hwoken hstocked hturn (hidle hturn) ?_
      (List.append_nil _).symm htold after)
    rintro f work ⟨hdoing, -, -⟩
    cases hdoing
    rfl
  · obtain ⟨hopen, hrest⟩ := hrest hturn
    have hbatch : ∃ ticket, s.intake.batch = some ticket :=
      Option.ne_none_iff_exists'.mp fun hnone => hturn (.inl ⟨.inr rfl, rfl, hnone⟩)
    obtain ⟨ticket, hbatch⟩ := hbatch
    have hmem : ⟨s.nextId, none, .batch ticket, .joining .destroy⟩ ∈
        (s.step (.begin .destroy)).flights := by
      rw [joining_begin rfl (show Purpose.destroy.Flushing from trivial) hbatch]
      exact List.mem_append_right _ List.mem_cons_self
    obtain ⟨first, htrace, -⟩ := s.step_trace (.begin .destroy)
    obtain ⟨given, htold'⟩ := told_step hkept hstocked htold (.begin .destroy)
    refine happlying ((waiting_run (kept_step hkept _) (woken_step hkept hwoken _)
      (stocked_step hkept hstocked _) hmem rfl rfl htrace (htold'.mono ?_) hrest).resolve_left ?_)
    · exact fun c hlost => hlost.resolve_right fun hdrops => hopen hdrops.1
    · exact fun hwaits => hgone _ hwaits rfl

theorem options_run (hkept : s.Kept) (actions : List Action) :
    (s.run actions).intake.options = s.intake.options := by
  induction actions generalizing s with
  | nil => rfl
  | cons a actions ih => exact (ih (kept_step hkept a)).trans (step_moved hkept a).options

/-- When a call that ends the intake is over, with nothing in its way, each change that was queued
before it was applied, or a newer one of its path was queued, or it was given up and counted, or it
was dropped: because its call failed in the batch of the ending call, with tries left, or by an
earlier call that ended the intake. From then on nothing is queued and nothing is handed to the
index. Nothing is in the way of an ending call while no other call flushes or ends the intake. -/
theorem destroy_accounts (root : String) (options : Options) (before after : List Action) :
    let s := (fresh root options).run before
    let t := s.run (.begin .destroy :: after)
    (Unhindered s.nextId s (.begin .destroy :: after) → (s.nextId, .ok ()) ∈ t.answers →
      (∃ counted : List Change, t.intake.missed = counted.length ∧
        (counted.map Change.origin).Nodup ∧
        (∀ c ∈ counted, options.maxRetries < (c.retries + 1 : Nat) ∧
          ∃ calls, .failed calls ∈ t.trace ∧ c ∈ calls) ∧
        ∀ c, .queued c ∈ s.trace → c ∈ (appliedIn t.trace).map Change.origin ∨ t.Overtaken c ∨
          c ∈ counted.map Change.origin ∨ t.FailedLast s.trace c ∨
            DroppedIn c (fresh root options) before) ∧
      ∀ more, (t.run more).intake.queue = .empty ∧ (t.run more).stages = [] ∧
        (t.run more).trace = t.trace) ∧
      (Prompt (fresh root options) (before ++ .begin .destroy :: after) → s.Alone →
        (∀ a ∈ after, ¬a.Flushing) → Unhindered s.nextId s (.begin .destroy :: after)) := by
  intro s t
  have hfresh := kept_fresh root options
  have hkept : s.Kept := kept_run hfresh before
  have hwoken : s.Woken := woken_run hfresh (woken_fresh root options) before
  have hstocked : s.Stocked := stocked_run hfresh (stocked_fresh root options) before
  have hkept' : t.Kept := kept_run hkept _
  refine ⟨?_, ?_⟩
  · intro hclear hover
    obtain ⟨counted, htold⟩ :=
      told_run hfresh (stocked_fresh root options) (told_fresh root options) before
    obtain ⟨hinert, counted, htold⟩ :=
      ended_of_unhindered hkept hwoken hstocked htold hclear hover
    have hheld : t.held = [] := by
      rw [held, hinert.closed.queue, hkept'.stages_of_idle hinert.idle]
      rfl
    have hoptions : t.intake.options = options :=
      (options_run hkept _).trans (options_run hfresh before)
    refine ⟨⟨counted, htold.missed, htold.once, ?_, ?_⟩, ?_⟩
    · rw [← hoptions]
      exact htold.spent
    · intro c hc
      obtain ⟨new, htrace⟩ := s.trace_run (.begin .destroy :: after)
      have hstands := htold.all c (htrace ▸ List.mem_append_left _ hc)
      rw [hheld, List.nil_append, List.map_append, List.mem_append] at hstands
      rcases hstands with (happlied | hcounted) | hovertaken | (hfalse | hdropped) | hnew | hfailed
      · exact .inl happlied
      · exact .inr (.inr (.inl hcounted))
      · exact .inr (.inl hovertaken)
      · exact hfalse.elim
      · exact .inr (.inr (.inr (.inr hdropped)))
      · exact absurd hc hnew
      · exact .inr (.inr (.inr (.inl hfailed)))
    · intro more
      obtain ⟨hlater, htrace⟩ :=
        inert_run hkept' (woken_run hkept hwoken _) hinert more
      exact ⟨hlater.closed.queue, (kept_run hkept' more).stages_of_idle hlater.idle, htrace⟩
  · intro hprompt halone hquiet
    obtain ⟨hbefore, hafter⟩ := prompt_append hprompt
    exact unhindered_of_alone hkept hwoken (lone_run hfresh (woken_fresh root options)
      (lone_fresh root options) hbefore) halone rfl (show Purpose.destroy.Flushing from trivial)
      hafter hquiet

/-- The only change fails while the intake is ended; it has tries left, but is dropped. -/
theorem destroy_accounts_dropped :
    let s := (fresh "/data" .default).run [.begin (.change "remove" "/data/p")]
    let t := s.run [.begin .destroy, .resume 1 (.served (.error (.device "full")))]
    t.FailedLast s.trace ⟨.remove, "/data/p", none, 0, 1⟩ ∧
      ∀ more, (t.run more).intake.queue = .empty ∧ (t.run more).stages = [] ∧
        (t.run more).trace = t.trace := by
  intro s t
  obtain ⟨haccounts, hclear⟩ := destroy_accounts "/data" .default
    [.begin (.change "remove" "/data/p")] [.resume 1 (.served (.error (.device "full")))]
  have hprompt : Prompt (fresh "/data" .default) ([.begin (.change "remove" "/data/p")] ++
      [.begin .destroy, .resume 1 (.served (.error (.device "full")))]) :=
    ⟨trivial, trivial, trivial, trivial⟩
  have halone : s.Alone := fun g hg => absurd hg List.not_mem_nil
  have hover : (s.nextId, .ok ()) ∈ t.answers := by decide
  obtain ⟨⟨counted, hmissed, -, -, hall⟩, hlater⟩ :=
    haccounts (hclear hprompt halone (by simp [Action.Flushing])) hover
  refine ⟨?_, hlater⟩
  have hnone : counted = [] := List.length_eq_zero_iff.mp (hmissed.symm.trans rfl)
  have hqueued : .queued ⟨.remove, "/data/p", none, 0, 1⟩ ∈ s.trace := by decide
  rcases hall ⟨.remove, "/data/p", none, 0, 1⟩ hqueued with
    happlied | ⟨q, hq, -, hnewer⟩ | hcounted | hfailed | hdropped
  · exact absurd happlied (by decide)
  · have hone : entered t.trace = [⟨.remove, "/data/p", none, 0, 1⟩] := rfl
    have hq := mem_entered.mpr hq
    rw [hone] at hq
    rw [List.mem_singleton.mp hq] at hnewer
    exact absurd hnewer (Nat.lt_irrefl _)
  · rw [hnone] at hcounted
    cases hcounted
  · exact hfailed
  · obtain ⟨-, hheld, -⟩ | hdropped := hdropped
    · cases hheld
    · exact hdropped.elim

/-- A change whose call fails while the intake is ended is not applied, no newer one is queued, and
nothing is counted, if it has tries left. -/
theorem destroy_drops :
    let s := (fresh "/data" .default).run [.begin (.change "remove" "/data/p")]
    let t := s.run [.begin .destroy, .resume 1 (.served (.error (.device "full")))]
    s.Alone ∧ (s.nextId, .ok ()) ∈ t.answers ∧ t.intake.missed = 0 ∧
      .queued ⟨.remove, "/data/p", none, 0, 1⟩ ∈ s.trace ∧
      ⟨.remove, "/data/p", none, 0, 1⟩ ∉ (appliedIn t.trace).map Change.origin ∧
      ¬t.Overtaken ⟨.remove, "/data/p", none, 0, 1⟩ := by
  intro s t
  refine ⟨fun g hg => absurd hg List.not_mem_nil, by decide, rfl, by decide, by decide, ?_⟩
  rintro ⟨q, hq, -, hnewer⟩
  have hone : entered t.trace = [⟨.remove, "/data/p", none, 0, 1⟩] := rfl
  have hq := mem_entered.mpr hq
  rw [hone] at hq
  rw [List.mem_singleton.mp hq] at hnewer
  exact absurd hnewer (Nat.lt_irrefl _)

end Session

end LiveIndex.Intake
