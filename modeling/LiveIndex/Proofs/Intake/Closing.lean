import LiveIndex.Proofs.Intake.Prompt

/-! An intake that is ended stays ended. It takes nothing in, and the only batch that may still be
applied is one of a call that ends it, which clears the queue once more. A call that ends the intake
has ended it when it answers. -/

namespace LiveIndex.Intake

variable {ix : Intake}

/-- Work that leaves an ended intake as it is. -/
structure Stays (ix : Intake) (work : Work) : Prop where
  closed : Closed work.state
  processing : work.state.processing = ix.processing
  missed : work.state.missed = ix.missed
  stage : stageAfter work.turn = none
  events : eventsAfter work.turn = []

namespace Closed

variable (h : Closed ix)

include h

theorem conclude (purpose : Purpose) : Stays ix (ix.conclude purpose) := by
  obtain ⟨hdestroyed, hqueue, hquiet, hgather⟩ := h
  cases purpose with
  | timed ticket => exact ⟨⟨hdestroyed, hqueue, hquiet, hgather⟩, rfl, rfl, rfl, rfl⟩
  | flush => exact ⟨⟨hdestroyed, hqueue, hquiet, hgather⟩, rfl, rfl, rfl, rfl⟩
  | destroy => exact ⟨⟨rfl, rfl, rfl, rfl⟩, rfl, rfl, rfl, rfl⟩

theorem process (purpose : Purpose) : Stays ix (ix.process purpose) := by
  have hempty : ix.queue.isEmpty = true := by
    rw [h.queue]
    rfl
  rw [Intake.process, hempty, Bool.or_true, if_pos rfl]
  exact h.conclude purpose

theorem disarmed : Closed ix.disarmTimers.1 :=
  ⟨h.destroyed, h.queue, rfl, rfl⟩

theorem flushNow (purpose : Purpose) : Stays ix (ix.flushNow purpose) := by
  obtain ⟨hclosed, hprocessing, hmissed, hstage, hevents⟩ := h.disarmed.process purpose
  exact ⟨hclosed, hprocessing, hmissed, hstage, hevents⟩

theorem beginFlush (purpose : Purpose) : Stays ix (ix.beginFlush purpose) := by
  unfold Intake.beginFlush
  dsimp only
  split
  · exact ⟨h.disarmed, rfl, rfl, rfl, rfl⟩
  · obtain ⟨hclosed, hprocessing, hmissed, hstage, hevents⟩ := h.disarmed.flushNow purpose
    exact ⟨hclosed, hprocessing, hmissed, hstage, hevents⟩

theorem receive (kind : WatchKind) (path : String) : Stays ix (ix.receive kind path) := by
  rw [Intake.receive, if_pos h.destroyed]
  exact ⟨h, rfl, rfl, rfl, rfl⟩

theorem begin (call : Call) : Stays ix (ix.begin call) := by
  have hfailed (f : Failure) : Stays ix (.failed ix [] f) := ⟨h, rfl, rfl, rfl, rfl⟩
  cases call with
  | change kind path =>
    unfold Intake.begin beginChange
    dsimp only
    split
    · exact h.receive ..
    · exact hfailed _
  | directoryChange kind path =>
    unfold Intake.begin beginDirectoryChange
    dsimp only
    split
    · split
      · exact h.receive ..
      · exact hfailed _
    · exact hfailed _
  | batch ticket => exact h.process _
  | flush => exact h.beginFlush _
  | destroy =>
    obtain ⟨hclosed, hprocessing, hmissed, hstage, hevents⟩ := h.beginFlush .destroy
    exact ⟨hclosed, hprocessing, hmissed, hstage, hevents⟩

theorem lookedUp (n : Nat) (kind : WatchKind) (path : String) (result : Except Failure Entry) :
    Stays ix (ix.lookedUp n kind path result) := by
  obtain ⟨hdestroyed, hqueue, hquiet, hgather⟩ := h
  have hforgotten (latest : OrderedMap String Nat) : Closed { ix with latest } :=
    ⟨hdestroyed, hqueue, hquiet, hgather⟩
  cases result with
  | ok e =>
    change Stays ix (ix.accept _)
    unfold accept enqueue
    rw [if_pos hdestroyed]
    split
    · exact ⟨hforgotten _, rfl, rfl, rfl, rfl⟩
    · exact ⟨hforgotten ix.latest, rfl, rfl, rfl, rfl⟩
  | error f =>
    unfold Intake.lookedUp
    dsimp only
    split
    · split
      · exact ⟨hforgotten _, rfl, rfl, rfl, rfl⟩
      · exact ⟨hforgotten ix.latest, rfl, rfl, rfl, rfl⟩
    · exact ⟨hforgotten ix.latest, rfl, rfl, rfl, rfl⟩

/-- What the batch of a call that ends the intake puts back into the queue is cleared again. -/
theorem nextRemoval {round : Round} (hpurpose : round.purpose = .destroy) :
    Closed (ix.nextRemoval round).state := by
  unfold Intake.nextRemoval
  split
  · unfold roundOver
    dsimp only
    rw [hpurpose]
    split <;> exact ⟨rfl, rfl, rfl, rfl⟩
  · exact h

end Closed

namespace Session

variable {s t : Session} {a : Action} {f : Option Flight} {work : Work} {id : Nat}

/-- An ended intake has nothing brought in, except for what the batch of a call does. -/
theorem Doing.stays (hkept : s.Kept) (h : Closed s.intake) (hdoing : s.Doing a f work)
    (hidle : ∀ g ∈ f, g.stage? = none) : Stays s.intake work ∧ s.noted a = [] := by
  cases hdoing with
  | @begun call hcall =>
    refine ⟨h.begin call, ?_⟩
    have harrival : s.intake.arrival? call = none := by
      unfold arrival?
      split
      · rw [if_pos h.destroyed]
      · rw [if_pos h.destroyed]
      · rfl
    rw [noted, arrivalEvents, harrival]
  | batch ticket => exact ⟨h.begin _, rfl⟩
  | found hf hwaiting result =>
    refine ⟨h.lookedUp .., ?_⟩
    rw [noted_found hkept hf hwaiting]
    cases result with
    | ok e =>
      rw [foundEvents, h.destroyed]
      rfl
    | error f => rfl
  | stored hf hwaiting result =>
    have hnone := hidle _ rfl
    rw [Flight.stage?, hwaiting] at hnone
    cases hnone
  | removed hf hwaiting result =>
    have hnone := hidle _ rfl
    rw [Flight.stage?, hwaiting] at hnone
    cases hnone
  | joined hf hwaiting => exact ⟨h.flushNow _, rfl⟩

theorem timers_of_closed (hwound : Wound s.intake s) (h : Closed s.intake) :
    s.quietTimers = [] ∧ s.gatherTimers = [] := by
  refine ⟨hwound.quiet.trans ?_, hwound.gather.trans ?_⟩
  · rw [h.quiet]
    rfl
  · rw [h.gather]
    rfl

/-- Nobody flushes the intake, and once it is ended the only batch that may still be applied is that
of a call that ends it. -/
structure Sealed (s : Session) : Prop where
  unflushed : ∀ g ∈ s.flights, g.purpose? ≠ some .flush
  closed : s.intake.destroyed = true → Closed s.intake ∧
    ∀ g ∈ s.flights, g.stage?.isSome = true → g.purpose? = some .destroy

theorem sealed_fresh (root : String) (options : Options) : (fresh root options).Sealed :=
  ⟨fun _ hg => absurd hg List.not_mem_nil, nofun⟩

/-- A call that ends the intake is over only when no batch is being applied that a timer has
started. -/
theorem destroy_of_stage (hkept : s.Kept) (hlone : s.Lone) (h : s.Sealed) (hdoes : s.Does a f work)
    (hpurpose : purposeOf a f = some .destroy) {result : Except Failure Unit}
    (hturn : work.turn = .done result) {g : Flight} (hg : g ∈ s.others f) {stage : Stage}
    (hstage : g.stage? = some stage) : g.purpose? = some .destroy := by
  have hmem := s.others_subset f hg
  have hflush := h.unflushed g hmem
  obtain ⟨purpose, hsome⟩ := purpose_of_stage hstage
  cases purpose with
  | destroy => exact hsome
  | flush => exact absurd hsome hflush
  | timed ticket =>
    have hticket := hkept.timed g hmem ticket hsome
    cases f with
    | none =>
      have hbatch := hlone.batch ticket (isRunning_iff.mpr (.inr ⟨g, hmem, hticket⟩))
      cases hdoes.doing with
      | begun hcall =>
        cases (begin_joins hpurpose (show Purpose.destroy.Flushing from trivial)
          hbatch).symm.trans hturn
      | batch other => cases hpurpose
    | some f =>
      obtain ⟨id, hf⟩ := hdoes.doing.found?
      have hmem' := List.mem_of_find?_eq_some hf
      cases hnow : f.stage? with
      | some now =>
        -- Only one batch is applied at a time.
        have hothers := ((hkept.without hf).2 now hnow).2.1
        have hstages : stage ∈ (s.without f).stages := List.mem_filterMap.mpr ⟨g, hg, hstage⟩
        rw [hothers] at hstages
        cases hstages
      | none =>
        have hjoins : ∃ ticket, f.request = .batch ticket := by
          have hasks := hkept.asks f hmem'
          obtain ⟨number, tk, request, waiting⟩ := f
          cases waiting with
          | lookingUp n kind path => cases hpurpose
          | storing stores round => cases hnow
          | removing c round => cases hnow
          | joining purpose => exact hasks
        obtain ⟨joined, hrequest⟩ := hjoins
        have hfree := (hlone.joined f hmem' joined hrequest).resolve_left
          (by rw [hdoes.freed f rfl joined hrequest]; exact Bool.false_ne_true)
        cases (hfree g hmem).symm.trans hticket

theorem purposeOf_ne_flush (h : s.Sealed) (hquiet : a ≠ .begin .flush) (hdoing : s.Doing a f work) :
    purposeOf a f ≠ some .flush := by
  cases f with
  | some f =>
    obtain ⟨id, hf⟩ := hdoing.found?
    exact h.unflushed f (List.mem_of_find?_eq_some hf)
  | none =>
    cases hdoing with
    | @begun call hcall =>
      cases call with
      | flush => exact absurd rfl hquiet
      | change kind path => exact nofun
      | directoryChange kind path => exact nofun
      | batch ticket => exact nofun
      | destroy => exact nofun
    | batch ticket => exact nofun

/-- Work on an ended intake leaves it ended; if a batch goes on, it is that of a call that ends the
intake. -/
theorem closed_works (hkept : s.Kept) (h : s.Sealed) (hended : s.intake.destroyed = true)
    (hdoes : s.Does a f work) : Closed work.state ∧ ∀ stage, stageAfter work.turn = some stage →
      purposeOf a f = some .destroy := by
  obtain ⟨hclosed, hstaged⟩ := h.closed hended
  have hstays (hidle : ∀ g ∈ f, g.stage? = none) : Closed work.state ∧
      ∀ stage, stageAfter work.turn = some stage → purposeOf a f = some .destroy := by
    obtain ⟨hstays, -⟩ := hdoes.doing.stays hkept hclosed hidle
    refine ⟨hstays.closed, fun stage hstage => ?_⟩
    cases hstays.stage.symm.trans hstage
  have hnone {waiting : Waiting} {g : Flight} (hwaiting : g.waiting = waiting)
      (hwaits : waiting.stage? = none) : ∀ g' ∈ some g, g'.stage? = none := by
    rintro g' ⟨⟩
    rw [Flight.stage?, hwaiting, hwaits]
  have hround {id : Nat} {g : Flight} {round : Round}
      (hf : s.flights.find? (·.id = id) = some g) (hstage : g.stage?.isSome = true)
      (hpurpose : g.purpose? = some round.purpose) : round.purpose = .destroy :=
    Option.some.inj (hpurpose.symm.trans (hstaged g (List.mem_of_find?_eq_some hf) hstage))
  cases hdoes.doing with
  | begun hcall => exact hstays (by rintro g ⟨⟩)
  | batch ticket => exact hstays (by rintro g ⟨⟩)
  | found hf hwaiting result => exact hstays (hnone hwaiting rfl)
  | joined hf hwaiting => exact hstays (hnone hwaiting rfl)
  | @stored id g hf stores round hwaiting result =>
    have hstage : g.stage?.isSome = true := by
      rw [Flight.stage?, hwaiting]
      rfl
    have hpurpose : g.purpose? = some round.purpose := by
      rw [Flight.purpose?, hwaiting]
      rfl
    have hdestroy := hround hf hstage hpurpose
    refine ⟨?_, fun _ _ => hpurpose.trans (congrArg some hdestroy)⟩
    cases result with
    | ok _ => exact hclosed.nextRemoval hdestroy
    | error f => exact hclosed.nextRemoval hdestroy
  | @removed id g hf c round hwaiting result =>
    have hstage : g.stage?.isSome = true := by
      rw [Flight.stage?, hwaiting]
      rfl
    have hpurpose : g.purpose? = some round.purpose := by
      rw [Flight.purpose?, hwaiting]
      rfl
    have hdestroy := hround hf hstage hpurpose
    refine ⟨?_, fun _ _ => hpurpose.trans (congrArg some hdestroy)⟩
    cases result with
    | ok _ => exact hclosed.nextRemoval hdestroy
    | error f => exact hclosed.nextRemoval hdestroy

/-- Work ends an intake only on behalf of a call that ends it, when that is over. -/
theorem done_of_ended (hkept : s.Kept) (hopen : s.intake.destroyed = false)
    (hdoing : s.Doing a f work) (hended : work.state.destroyed = true) :
    purposeOf a f = some .destroy ∧ Closed work.state ∧ ∃ result, work.turn = .done result := by
  have hsame {P : Prop} (hsame : work.state.destroyed = s.intake.destroyed) : P := by
    cases (hsame.trans hopen).symm.trans hended
  rcases hdoing.acts_or_admits hkept with ⟨purpose, hpurpose, hacts⟩ | ⟨-, hadmits⟩
  · cases hturn : work.turn with
    | ask request waiting => exact hsame (hacts.waits request waiting hturn).2.1
    | done result =>
      have hends := (hacts.ends result hturn).2
      cases purpose with
      | timed ticket => exact hsame hends.1
      | flush => exact hsame hends
      | destroy => exact ⟨hpurpose, hends, result, rfl⟩
  · exact hsame hadmits.destroyed

theorem sealed_works (hkept : s.Kept) (hlone : s.Lone) (h : s.Sealed) (hquiet : a ≠ .begin .flush)
    (hdoes : s.Does a f work) :
    ((s.ready a f).advance (s.idOf f) (ticketOf a f) work).Sealed := by
  have hflights := advance_flights (s.ready a f) (s.idOf f) (ticketOf a f) work
  rw [ready_flights] at hflights
  have hnew {g : Flight} (hg : g ∈ flightsAfter (s.idOf f) (ticketOf a f) work.turn)
      {purpose : Purpose} (hpurpose : g.purpose? = some purpose) :
      purposeOf a f = some purpose := by
    have hturn := (mem_flightsAfter hg).2.2
    rcases hdoes.doing.acts_or_admits hkept with ⟨p, hp, hacts⟩ | ⟨-, hadmits⟩
    · exact hp.trans ((hacts.waits _ _ hturn).1.symm.trans hpurpose)
    · cases (hadmits.waits _ _ hturn).symm.trans hpurpose
  -- The intake was ended before, or it is by a call that is over in this step.
  refine ⟨fun g hg hflush => ?_, fun hended => ?_⟩
  · rcases List.mem_append.mp (hflights ▸ hg) with hg | hg
    · exact h.unflushed g (s.others_subset f hg) hflush
    · exact purposeOf_ne_flush h hquiet hdoes.doing (hnew hg hflush)
  · rw [advance_intake] at hended ⊢
    rw [hflights]
    cases hbefore : s.intake.destroyed with
    | true =>
      obtain ⟨hclosed, hgoes⟩ := closed_works hkept h hbefore hdoes
      refine ⟨hclosed, fun g hg hstage => ?_⟩
      rcases List.mem_append.mp hg with hg | hg
      · exact (h.closed hbefore).2 g (s.others_subset f hg) hstage
      · have hturn := (mem_flightsAfter hg).2.2
        obtain ⟨stage, hsome⟩ := Option.isSome_iff_exists.mp hstage
        have hdestroy := hgoes stage (by rw [hturn]; exact hsome)
        rcases hdoes.doing.acts_or_admits hkept with ⟨p, hp, hacts⟩ | ⟨hnone, -⟩
        · exact (hacts.waits _ _ hturn).1.trans (hp.symm.trans hdestroy)
        · cases hnone.symm.trans hdestroy
    | false =>
      obtain ⟨hpurpose, hclosed, result, hturn⟩ := done_of_ended hkept hbefore hdoes.doing hended
      refine ⟨hclosed, fun g hg hstage => ?_⟩
      rw [hturn] at hg
      obtain ⟨stage, hsome⟩ := Option.isSome_iff_exists.mp hstage
      exact destroy_of_stage hkept hlone h hdoes hpurpose hturn
        ((List.mem_append.mp hg).resolve_right List.not_mem_nil) hsome

theorem sealed_step (hkept : s.Kept) (hwoken : s.Woken) (hlone : s.Lone) (h : s.Sealed)
    (hquiet : a ≠ .begin .flush) : (s.step a).Sealed := by
  have hrings {t : Session} (hwinds : Winding s t) (hopen : s.intake.destroyed ≠ true) :
      t.Sealed := by
    refine ⟨by rw [hwinds.flights]; exact h.unflushed, fun hended => ?_⟩
    exact absurd (hwinds.destroyed.symm.trans hended) hopen
  obtain ⟨t, ht⟩ : ∃ t, t = s.step a := ⟨_, rfl⟩
  have hstepped := s.step_stepped a
  rw [← ht] at hstepped
  cases hstepped with
  | same => exact ht ▸ h
  | @quiet ticket ha hmem =>
    have hwinds := winding_timer s (.inl ha)
    refine hrings hwinds fun hended => ?_
    rw [(timers_of_closed hwoken.wound (h.closed hended).1).1] at hmem
    cases hmem
  | @gather ticket ha hmem =>
    have hwinds := winding_timer s (.inr ha)
    refine hrings hwinds fun hended => ?_
    rw [(timers_of_closed hwoken.wound (h.closed hended).1).2] at hmem
    cases hmem
  | works hdoes => exact ht ▸ sealed_works hkept hlone h hquiet hdoes

/-- A call that ends the intake is under way, or it is over and the intake is ended. -/
structure Ends (s : Session) (id : Nat) : Prop where
  known : id < s.nextId
  state : (∃ g ∈ s.flights, g.id = id ∧ g.purpose? = some .destroy) ∨
    s.intake.destroyed = true ∧ ∀ g ∈ s.flights, g.id ≠ id
  answers : ∀ result, (id, result) ∈ s.answers → result = .ok ()

/-- When a call that ends the intake answers, the intake is ended. -/
theorem Ends.destroyed (hkept : s.Kept) (h : s.Ends id) {result : Except Failure Unit}
    (hanswer : (id, result) ∈ s.answers) : s.intake.destroyed = true := by
  rcases h.state with ⟨g, hg, hid, -⟩ | ⟨hended, -⟩
  · exact absurd hid ((hkept.answered _ hanswer).2 g hg)
  · exact hended

theorem ends_works (hkept : s.Kept) (hdoes : s.Does a f work)
    (hpurpose : purposeOf a f = some .destroy) :
    ((s.ready a f).advance (s.idOf f) (ticketOf a f) work).Ends (s.idOf f) := by
  have hflights := advance_flights (s.ready a f) (s.idOf f) (ticketOf a f) work
  have hanswers := advance_answers (s.ready a f) (s.idOf f) (ticketOf a f) work
  rw [ready_flights] at hflights
  rw [ready_answers] at hanswers
  obtain ⟨hothers, hold⟩ := idOf_ne hkept hdoes.doing
  obtain ⟨purpose, hsome, hacts⟩ | ⟨hnone, -⟩ := hdoes.doing.acts_or_admits hkept
  · obtain rfl : purpose = .destroy := Option.some.inj (hsome.symm.trans hpurpose)
    refine ⟨?_, ?_, ?_⟩
    · rw [advance_nextId]
      exact idOf_lt hkept hdoes.doing
    · rw [hflights, advance_intake]
      cases hturn : work.turn with
      | ask request waiting =>
        refine .inl ⟨_, List.mem_append_right _ List.mem_cons_self, rfl, ?_⟩
        exact (hacts.waits request waiting hturn).1
      | done result =>
        refine .inr ⟨(hacts.ends result hturn).2.destroyed, fun g hg => ?_⟩
        exact hothers g ((List.mem_append.mp hg).resolve_right List.not_mem_nil)
    · intro result hresult
      rw [hanswers] at hresult
      rcases List.mem_append.mp hresult with hresult | hresult
      · exact absurd rfl (hold _ hresult)
      · exact (hacts.ends result (mem_answersAfter hresult).2).1
  · cases hnone.symm.trans hpurpose

theorem ends_begin (hkept : s.Kept) : (s.step (.begin .destroy)).Ends s.nextId :=
  ends_works hkept (f := none) ⟨.begun (by rintro _ ⟨⟩), by rintro _ ⟨⟩, by rintro _ ⟨⟩⟩ rfl

/-- What is done for another call leaves alone what a call does that ends the intake. -/
theorem ends_aside (hkept : s.Kept) (h : s.Ends id) (hdoes : s.Does a f work)
    (hne : s.idOf f ≠ id) :
    ((s.ready a f).advance (s.idOf f) (ticketOf a f) work).Ends id := by
  have hflights := advance_flights (s.ready a f) (s.idOf f) (ticketOf a f) work
  have hanswers := advance_answers (s.ready a f) (s.idOf f) (ticketOf a f) work
  rw [ready_flights] at hflights
  rw [ready_answers] at hanswers
  refine ⟨?_, ?_, ?_⟩
  · rw [advance_nextId]
    exact h.known.trans_le (nextId_le_ready s a f)
  · rw [hflights, advance_intake]
    rcases h.state with ⟨g, hg, hid, hpurpose⟩ | ⟨hended, hgone⟩
    · have hgoes : g ∉ f := by
        intro hgoes
        obtain rfl := Option.mem_def.mp hgoes
        exact hne hid
      exact .inl ⟨g, List.mem_append_left _ (mem_others hdoes.doing hg hgoes), hid, hpurpose⟩
    · refine .inr ⟨?_, fun g hg => ?_⟩
      · rcases hdoes.doing.acts_or_admits hkept with ⟨purpose, -, hacts⟩ | ⟨-, hadmits⟩
        · cases hturn : work.turn with
          | ask request waiting => exact (hacts.waits request waiting hturn).2.1.trans hended
          | done result =>
            have hends := (hacts.ends result hturn).2
            cases purpose with
            | timed ticket => exact hends.1.trans hended
            | flush => exact Eq.trans hends hended
            | destroy => exact hends.destroyed
        · exact hadmits.destroyed.trans hended
      · rcases List.mem_append.mp hg with hg | hg
        · exact hgone g (s.others_subset f hg)
        · rw [(mem_flightsAfter hg).1]
          exact hne
  · intro result hresult
    rw [hanswers] at hresult
    rcases List.mem_append.mp hresult with hresult | hresult
    · exact h.answers result hresult
    · exact absurd (mem_answersAfter hresult).1.symm hne

theorem ends_step (hkept : s.Kept) (h : s.Ends id) (a : Action) : (s.step a).Ends id := by
  rcases s.winding_or_works a with hwinds | ⟨f, work, hdoes, hstep⟩
  · refine ⟨h.known.trans_le hwinds.nextId.ge, ?_, ?_⟩
    · rw [hwinds.flights, hwinds.destroyed]
      exact h.state
    · rw [hwinds.answers]
      exact h.answers
  · rw [hstep]
    by_cases hne : s.idOf f = id
    -- The call itself goes on, so it is not over yet.
    · subst hne
      cases f with
      | none => exact absurd h.known (Nat.lt_irrefl _)
      | some f =>
        obtain ⟨number, hf⟩ := hdoes.doing.found?
        have hmem := List.mem_of_find?_eq_some hf
        refine ends_works hkept hdoes ?_
        rcases h.state with ⟨g, hg, hid, hpurpose⟩ | ⟨-, hgone⟩
        · obtain rfl : g = f := List.inj_on_of_nodup_map hkept.ids hg hmem hid
          exact hpurpose
        · exact absurd rfl (hgone f hmem)
    · exact ends_aside hkept h hdoes hne

end Session

end LiveIndex.Intake
