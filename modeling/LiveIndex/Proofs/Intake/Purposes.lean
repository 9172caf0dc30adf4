import LiveIndex.Proofs.Intake.Lookups

/-! The work of an intake, on whose behalf it may be done. All of it winds the timers as the intake
notes it and leaves nothing queued that is not waited for. Work that ends the intake does what other
work does, and clears the queue when that is over. -/

namespace LiveIndex.Intake

/-- On whose behalf a call applies a batch or is going to. -/
def Waiting.purpose? : Waiting → Option Purpose
  | .lookingUp _ _ _ => none
  | .storing _ round | .removing _ round => some round.purpose
  | .joining purpose => some purpose

def Flight.purpose? (f : Flight) : Option Purpose :=
  f.waiting.purpose?

/-- The timers of a session are those that an intake knows of. -/
structure Wound (ix : Intake) (s : Session) : Prop where
  quiet : s.quietTimers = ix.quietTimer.toList
  gather : s.gatherTimers = ix.gatherTimer.toList
  quietBelow : ∀ t ∈ ix.quietTimer, t < ix.ticket
  gatherBelow : ∀ t ∈ ix.gatherTimer, t < ix.ticket
  apart : ∀ t ∈ ix.quietTimer, t ∉ ix.gatherTimer

/-- Effects that wind the timers of a session as the intake notes it, and start no batch. -/
def Winds (ix : Intake) (effects : List Effect) (ix' : Intake) : Prop :=
  ∀ r : Session, Wound ix r →
    Wound ix' (effects.foldl Session.perform r) ∧ (effects.foldl Session.perform r).due = r.due

/-- What is queued is waited for by a timer or by the batch that is being applied. -/
def Awake (ix : Intake) : Prop :=
  ix.destroyed = false → ix.queue.isEmpty = false →
    ix.processing = true ∨ ix.quietTimer.isSome = true ∨ ix.gatherTimer.isSome = true

/-- What is queued is waited for, or a batch was started. -/
def Attended (ix : Intake) : Prop :=
  Awake ix ∨ ix.batch.isSome = true

/-- An intake that was ended: it holds nothing and waits for nothing. -/
structure Closed (ix : Intake) : Prop where
  destroyed : ix.destroyed = true
  queue : ix.queue = .empty
  quiet : ix.quietTimer = none
  gather : ix.gatherTimer = none

/-- How an intake stands when a call is over that was made for a purpose. -/
def Purpose.Ended (ix ix' : Intake) : Purpose → Prop
  | .timed ticket => ix'.destroyed = ix.destroyed ∧ ix'.batch ≠ some ticket
  | .flush => ix'.destroyed = ix.destroyed
  | .destroy => Closed ix'

/-- Work on someone's behalf. -/
structure Acts (ix : Intake) (purpose : Purpose) (work : Work) : Prop where
  winds : Winds ix work.effects work.state
  ticket : ix.ticket ≤ work.state.ticket
  latest : ∀ path n, work.state.latest.get? path = some n → ix.latest.get? path = some n
  batch : work.state.batch = ix.batch ∨
    work.state.batch = none ∧ ∃ ticket, ix.batch = some ticket ∧ purpose = .timed ticket
  attended : Attended work.state
  waits : ∀ request waiting, work.turn = .ask request waiting →
    waiting.purpose? = some purpose ∧ work.state.destroyed = ix.destroyed ∧
      work.state.batch = ix.batch
  staged : ∀ request waiting ticket, work.turn = .ask request waiting → purpose = .timed ticket →
    waiting.stage?.isSome = true
  ends : ∀ result, work.turn = .done result → result = .ok () ∧ purpose.Ended ix work.state

/-- Work that brings a change in, or turns a call away. -/
structure Admits (ix : Intake) (work : Work) : Prop where
  winds : Winds ix work.effects work.state
  ticket : ix.ticket ≤ work.state.ticket
  batch : work.state.batch = ix.batch
  destroyed : work.state.destroyed = ix.destroyed
  busy : work.state.processing = ix.processing
  stage : stageAfter work.turn = none
  attended : Attended ix → Attended work.state
  waits : ∀ request waiting, work.turn = .ask request waiting → waiting.purpose? = none

/-- Work that does what other work does, and clears the queue when it is done to end the intake. -/
structure Finishes (purpose : Purpose) (plain work : Work) : Prop where
  missed : work.state.missed = plain.state.missed
  options : work.state.options = plain.state.options
  processing : work.state.processing = plain.state.processing
  stage : stageAfter work.turn = stageAfter plain.turn
  events : eventsAfter work.turn = eventsAfter plain.turn
  queue : work.state.queue = plain.state.queue ∨
    purpose = .destroy ∧ ∃ result, work.turn = .done result

section Winding

variable {ix ix' ix'' : Intake} {effects more : List Effect}

theorem Winds.trans (h : Winds ix effects ix') (h' : Winds ix' more ix'') :
    Winds ix (effects ++ more) ix'' := by
  intro r hr
  obtain ⟨hfirst, hdue⟩ := h r hr
  obtain ⟨hsecond, hdue'⟩ := h' _ hfirst
  rw [List.foldl_append]
  exact ⟨hsecond, hdue'.trans hdue⟩

/-- Nothing is wound by effects that leave a session as it is. -/
theorem winds_idle (heffects : ∀ e ∈ effects, ∀ r : Session, r.perform e = r)
    (hquiet : ix'.quietTimer = ix.quietTimer) (hgather : ix'.gatherTimer = ix.gatherTimer)
    (hticket : ix.ticket ≤ ix'.ticket) : Winds ix effects ix' := by
  intro r hr
  have hsame : effects.foldl Session.perform r = r := by
    induction effects with
    | nil => rfl
    | cons e effects ih =>
      rw [List.foldl_cons, heffects e List.mem_cons_self]
      exact ih fun e' he' => heffects e' (List.mem_cons_of_mem _ he')
  rw [hsame]
  refine ⟨⟨hr.quiet.trans ?_, hr.gather.trans ?_, ?_, ?_, ?_⟩, rfl⟩
  · rw [hquiet]
  · rw [hgather]
  · rw [hquiet]
    exact fun t ht => Nat.lt_of_lt_of_le (hr.quietBelow t ht) hticket
  · rw [hgather]
    exact fun t ht => Nat.lt_of_lt_of_le (hr.gatherBelow t ht) hticket
  · rw [hquiet, hgather]
    exact hr.apart

theorem winds_nil (hquiet : ix'.quietTimer = ix.quietTimer)
    (hgather : ix'.gatherTimer = ix.gatherTimer) (hticket : ix.ticket ≤ ix'.ticket) :
    Winds ix [] ix' :=
  winds_idle (fun _ he => absurd he List.not_mem_nil) hquiet hgather hticket

theorem winds_log (ix : Intake) (level : Level) (text : String) : Winds ix [.log level text] ix :=
  winds_idle (fun e he r => by rw [List.mem_singleton.mp he]; rfl) rfl rfl (Nat.le_refl _)

theorem winds_disarmTimers (ix : Intake) : Winds ix ix.disarmTimers.2 ix.disarmTimers.1 := by
  rintro r ⟨hquiet, hgather, -, -, hapart⟩
  have hwound (t : Session) (hq : t.quietTimers = []) (hg : t.gatherTimers = []) :
      Wound ix.disarmTimers.1 t := ⟨hq, hg, nofun, nofun, nofun⟩
  have hne {q g : Nat} (hq : ix.quietTimer = some q) (hg : ix.gatherTimer = some g) : g ≠ q :=
    fun h => hapart q hq (h ▸ hg)
  unfold disarmTimers
  cases hq : ix.quietTimer with
  | none =>
    rw [hq] at hquiet
    cases hg : ix.gatherTimer with
    | none =>
      rw [hg] at hgather
      exact ⟨hwound _ hquiet hgather, rfl⟩
    | some g => refine ⟨hwound _ ?_ ?_, ?_⟩ <;> simp [Session.perform, hquiet, hgather, hg]
  | some q =>
    cases hg : ix.gatherTimer with
    | none => refine ⟨hwound _ ?_ ?_, ?_⟩ <;> simp [Session.perform, hquiet, hgather, hq, hg]
    | some g =>
      refine ⟨hwound _ ?_ ?_, ?_⟩ <;> simp [Session.perform, hquiet, hgather, hq, hg, hne hq hg]

theorem winds_awaitQuiet (ix : Intake) : Winds ix ix.awaitQuiet.2 ix.awaitQuiet.1 := by
  rintro r ⟨hquiet, hgather, -, hbelow, hapart⟩
  have hwound (t : Session) (hq : t.quietTimers = [ix.ticket])
      (hg : t.gatherTimers = ix.gatherTimer.toList) : Wound ix.awaitQuiet.1 t := by
    refine ⟨hq, hg, ?_, ?_, ?_⟩
    · rintro t ht
      cases ht
      exact Nat.lt_succ_self _
    · exact fun t ht => Nat.lt_succ_of_lt (hbelow t ht)
    · rintro t ht hg
      cases ht
      exact Nat.lt_irrefl _ (hbelow _ hg)
  unfold awaitQuiet
  cases hq : ix.quietTimer with
  | none => refine ⟨hwound _ ?_ ?_, ?_⟩ <;> simp [Session.perform, hquiet, hgather, hq]
  | some q =>
    have herase : ix.gatherTimer.toList.erase q = ix.gatherTimer.toList :=
      List.erase_of_not_mem fun hg => hapart q hq (Option.mem_toList.mp hg)
    refine ⟨hwound _ ?_ ?_, ?_⟩ <;> simp [Session.perform, hquiet, hgather, hq, herase]

/-- When the quiet timer has rung, the gather timer is restarted. -/
theorem winds_quiet (ix : Intake) :
    Winds { ix with quietTimer := none } ix.quiet.2 ix.quiet.1 := by
  rintro r ⟨hquiet, hgather, -, hbelow, -⟩
  have hwound (t : Session) (hq : t.quietTimers = []) (hg : t.gatherTimers = [ix.ticket]) :
      Wound ix.quiet.1 t := by
    refine ⟨hq, hg, nofun, ?_, nofun⟩
    rintro t ht
    cases ht
    exact Nat.lt_succ_self _
  unfold Intake.quiet
  cases hg : ix.gatherTimer with
  | none => refine ⟨hwound _ ?_ ?_, ?_⟩ <;> simp [Session.perform, hquiet, hgather, hg]
  | some g => refine ⟨hwound _ ?_ ?_, ?_⟩ <;> simp [Session.perform, hquiet, hgather, hg]

end Winding

section Works

variable {ix ix' : Intake} {purpose : Purpose} {work : Work}

theorem Acts.after {effects : List Effect} (h : Acts ix' purpose work)
    (hwinds : Winds ix effects ix') (hticket : ix.ticket ≤ ix'.ticket)
    (hlatest : ix'.latest = ix.latest) (hbatch : ix'.batch = ix.batch)
    (hdestroyed : ix'.destroyed = ix.destroyed) : Acts ix purpose (work.after effects) := by
  refine ⟨hwinds.trans h.winds, hticket.trans h.ticket, ?_, ?_, h.attended, ?_, h.staged, ?_⟩
  · rw [← hlatest]
    exact h.latest
  · rw [← hbatch]
    exact h.batch
  · rw [← hdestroyed, ← hbatch]
    exact h.waits
  · intro result hturn
    obtain ⟨hok, hended⟩ := h.ends result hturn
    refine ⟨hok, ?_⟩
    cases purpose with
    | timed ticket => exact ⟨hended.1.trans hdestroyed, hended.2⟩
    | flush => exact Eq.trans hended hdestroyed
    | destroy => exact hended

theorem acts_conclude (h : Awake ix) (purpose : Purpose) : Acts ix purpose (ix.conclude purpose) := by
  cases purpose with
  | timed ticket =>
    refine ⟨winds_nil rfl rfl (Nat.le_refl _), Nat.le_refl _, fun _ _ hn => hn, ?_, .inl h,
      (by rintro _ _ ⟨⟩), (by rintro _ _ _ ⟨⟩), ?_⟩
    · change (if ix.batch = some ticket then none else ix.batch) = ix.batch ∨
        (if ix.batch = some ticket then none else ix.batch) = none ∧ _
      split
      · next hbatch => exact .inr ⟨rfl, ticket, hbatch, rfl⟩
      · exact .inl rfl
    · intro result hturn
      cases hturn
      refine ⟨rfl, rfl, ?_⟩
      change (if ix.batch = some ticket then none else ix.batch) ≠ some ticket
      split
      · exact nofun
      · next hother => exact hother
  | flush =>
    refine ⟨winds_nil rfl rfl (Nat.le_refl _), Nat.le_refl _, fun _ _ hn => hn, .inl rfl, .inl h,
      (by rintro _ _ ⟨⟩), (by rintro _ _ _ ⟨⟩), ?_⟩
    intro result hturn
    cases hturn
    exact ⟨rfl, rfl⟩
  | destroy =>
    have hwinds := winds_disarmTimers { ix with destroyed := true }
    refine ⟨?_, Nat.le_refl _, (by rintro _ _ ⟨⟩), .inl rfl, .inl (by rintro ⟨⟩),
      (by rintro _ _ ⟨⟩), (by rintro _ _ _ ⟨⟩), ?_⟩
    · intro r hr
      obtain ⟨⟨hq, hg, hqb, hgb, hap⟩, hdue⟩ :=
        hwinds r ⟨hr.quiet, hr.gather, hr.quietBelow, hr.gatherBelow, hr.apart⟩
      exact ⟨⟨hq, hg, hqb, hgb, hap⟩, hdue⟩
    · intro result hturn
      cases hturn
      exact ⟨rfl, rfl, rfl, rfl, rfl⟩

/-- What failed is put back without any more ado than a line in the log. -/
theorem retryAll_rest (ix : Intake) (failed : List Change) :
    Winds ix (ix.retryAll failed).2 (ix.retryAll failed).1 ∧
      (ix.retryAll failed).1.ticket = ix.ticket ∧ (ix.retryAll failed).1.batch = ix.batch ∧
      (ix.retryAll failed).1.destroyed = ix.destroyed := by
  have hretry (ix : Intake) (c : Change) : Winds ix (ix.retry c).2 (ix.retry c).1 ∧
      (ix.retry c).1.ticket = ix.ticket ∧ (ix.retry c).1.batch = ix.batch ∧
      (ix.retry c).1.destroyed = ix.destroyed := by
    unfold Intake.retry
    split
    · exact ⟨winds_nil rfl rfl (Nat.le_refl _), rfl, rfl, rfl⟩
    · split
      · refine ⟨winds_idle ?_ rfl rfl (Nat.le_refl _), rfl, rfl, rfl⟩
        intro e he r
        rw [List.mem_singleton.mp he]
        rfl
      · exact ⟨winds_nil rfl rfl (Nat.le_refl _), rfl, rfl, rfl⟩
  induction failed generalizing ix with
  | nil => exact ⟨winds_nil rfl rfl (Nat.le_refl _), rfl, rfl, rfl⟩
  | cons c rest ih =>
    obtain ⟨hwinds, hticket, hbatch, hdestroyed⟩ := hretry ix c
    obtain ⟨hmore, hticket', hbatch', hdestroyed'⟩ := ih (ix.retry c).1
    exact ⟨hwinds.trans hmore, hticket'.trans hticket, hbatch'.trans hbatch,
      hdestroyed'.trans hdestroyed⟩

theorem roundOver_processing (ix : Intake) (round : Round) :
    (ix.roundOver round).state.processing = false := by
  have hconclude (ix : Intake) : (ix.conclude round.purpose).state.processing = ix.processing := by
    cases round.purpose <;> rfl
  unfold roundOver
  dsimp only
  split <;> exact hconclude _

theorem acts_roundOver (ix : Intake) (round : Round) :
    Acts ix round.purpose (ix.roundOver round) := by
  obtain ⟨hwinds, hticket, hbatch, hdestroyed⟩ := retryAll_rest ix round.failed
  have hlatest := ix.retryAll_latest round.failed
  have hidle : Winds ix (ix.retryAll round.failed).2
      { (ix.retryAll round.failed).1 with processing := false } := by
    rw [← List.append_nil (ix.retryAll round.failed).2]
    exact hwinds.trans (winds_nil rfl rfl (Nat.le_refl _))
  unfold roundOver
  dsimp only
  split
  · next hnone =>
    have hawake : Awake { (ix.retryAll round.failed).1 with processing := false } := by
      intro hlive hsome
      rw [hsome, Bool.false_or] at hnone
      exact absurd (hlive.symm.trans hnone) Bool.false_ne_true
    exact (acts_conclude hawake round.purpose).after hidle hticket.ge hlatest hbatch hdestroyed
  · have hawake : Awake { (ix.retryAll round.failed).1 with processing := false }.awaitQuiet.1 :=
      fun _ _ => .inr (.inl rfl)
    exact (acts_conclude hawake round.purpose).after (hidle.trans (winds_awaitQuiet _))
      (hticket.ge.trans (Nat.le_succ _)) hlatest hbatch hdestroyed

/-- A batch goes on as long as it has a call to wait for. -/
theorem nextRemoval_processing (hbusy : ix.processing = true) (round : Round) :
    (ix.nextRemoval round).state.processing = (stageAfter (ix.nextRemoval round).turn).isSome := by
  unfold nextRemoval
  split
  · rw [roundOver_processing]
    unfold roundOver
    dsimp only
    split <;>
    · change false = (stageAfter (conclude _ round.purpose).turn).isSome
      rw [conclude_done]
      rfl
  · exact hbusy

theorem acts_nextRemoval (hbusy : ix.processing = true) (round : Round) :
    Acts ix round.purpose (ix.nextRemoval round) := by
  unfold nextRemoval
  split
  · exact acts_roundOver ix round
  · refine ⟨winds_nil rfl rfl (Nat.le_refl _), Nat.le_refl _, fun _ _ hn => hn, .inl rfl,
      .inl fun _ _ => .inl hbusy, ?_, ?_, (by rintro _ ⟨⟩)⟩
    · intro request waiting hturn
      cases hturn
      exact ⟨rfl, rfl, rfl⟩
    · intro request waiting ticket hturn _
      cases hturn
      rfl

theorem acts_process (ix : Intake) (purpose : Purpose) : Acts ix purpose (ix.process purpose) := by
  unfold process
  split
  · next hidle =>
    refine acts_conclude ?_ purpose
    intro _ hsome
    rw [hsome, Bool.or_false] at hidle
    exact .inl hidle
  · dsimp only
    -- The queue is taken, so it is the batch that waits for the changes now.
    split
    · have hwinds : Winds ix [] { ix with processing := true, queue := .empty } :=
        winds_nil rfl rfl (Nat.le_refl _)
      have hbusy : Intake.processing { ix with processing := true, queue := .empty } = true := rfl
      have hacts := acts_nextRemoval hbusy ⟨purpose, ix.queue.values.filter Change.isRemoval, []⟩
      exact ⟨hwinds.trans hacts.winds, hacts.ticket, hacts.latest, hacts.batch,
        hacts.attended, hacts.waits, hacts.staged, hacts.ends⟩
    · refine ⟨winds_nil rfl rfl (Nat.le_refl _), Nat.le_refl _, fun _ _ hn => hn, .inl rfl,
        .inl fun _ _ => .inl rfl, ?_, ?_, (by rintro _ ⟨⟩)⟩
      · intro request waiting hturn
        cases hturn
        exact ⟨rfl, rfl, rfl⟩
      · intro request waiting ticket hturn _
        cases hturn
        rfl

theorem acts_flushNow (ix : Intake) (purpose : Purpose) :
    Acts ix purpose (ix.flushNow purpose) :=
  (acts_process ix.disarmTimers.1 purpose).after (winds_disarmTimers ix) (Nat.le_refl _) rfl rfl rfl

theorem acts_beginFlush (ix : Intake) (hpurpose : ∀ ticket, purpose ≠ .timed ticket) :
    Acts ix purpose (ix.beginFlush purpose) := by
  unfold beginFlush
  dsimp only
  split
  · next ticket hbatch =>
    refine ⟨winds_disarmTimers ix, Nat.le_refl _, fun _ _ hn => hn, .inl rfl, .inr ?_, ?_,
      fun _ _ ticket _ htimed => absurd htimed (hpurpose ticket), (by rintro _ ⟨⟩)⟩
    · change ix.batch.isSome = true
      exact Option.isSome_of_eq_some hbatch
    · intro request waiting hturn
      cases hturn
      exact ⟨rfl, rfl, rfl⟩
  · exact (acts_flushNow ix.disarmTimers.1 purpose).after (winds_disarmTimers ix) (Nat.le_refl _)
      rfl rfl rfl

theorem acts_destroy (ix : Intake) : Acts ix .destroy (ix.begin .destroy) := by
  have hpurpose : ∀ ticket, Purpose.destroy ≠ .timed ticket := fun _ => nofun
  refine (acts_beginFlush ix hpurpose).after ?_ (Nat.le_refl _) rfl rfl rfl
  exact winds_idle (fun e he r => by rw [List.mem_singleton.mp he]; rfl) rfl rfl (Nat.le_refl _)

theorem acts_stored (hbusy : ix.processing = true) (stores : List Change) (round : Round)
    (result : Except Failure Unit) : Acts ix round.purpose (ix.stored stores round result) := by
  cases result with
  | ok _ => exact acts_nextRemoval hbusy round
  | error f =>
    exact (acts_nextRemoval hbusy { round with failed := round.failed ++ stores }).after
      (winds_log ix _ _) (Nat.le_refl _) rfl rfl rfl

theorem acts_removed (hbusy : ix.processing = true) (c : Change) (round : Round)
    (result : Except Failure Unit) : Acts ix round.purpose (ix.removed c round result) := by
  cases result with
  | ok _ => exact acts_nextRemoval hbusy round
  | error f =>
    exact (acts_nextRemoval hbusy { round with failed := round.failed ++ [c] }).after
      (winds_log ix _ _) (Nat.le_refl _) rfl rfl rfl

theorem admits_failed (ix : Intake) (f : Failure) : Admits ix (.failed ix [] f) :=
  ⟨winds_nil rfl rfl (Nat.le_refl _), Nat.le_refl _, rfl, rfl, rfl, rfl, id, (by rintro _ _ ⟨⟩)⟩

theorem admits_accept (ix : Intake) (c : Change) : Admits ix (ix.accept c) := by
  unfold Intake.accept
  split
  · unfold enqueue
    dsimp only
    split
    · exact ⟨winds_nil rfl rfl (Nat.le_refl _), Nat.le_refl _, rfl, rfl, rfl, rfl, id,
        (by rintro _ _ ⟨⟩)⟩
    · have hforgotten : Winds ix []
          { ix with latest := ix.latest.erase c.path, queue := ix.queue.insert c.path c } :=
        winds_nil rfl rfl (Nat.le_refl _)
      exact ⟨hforgotten.trans (winds_awaitQuiet _), Nat.le_succ _, rfl, rfl, rfl, rfl,
        fun _ => .inl fun _ _ => .inr (.inl rfl), (by rintro _ _ ⟨⟩)⟩
  · exact ⟨winds_nil rfl rfl (Nat.le_refl _), Nat.le_refl _, rfl, rfl, rfl, rfl, id,
      (by rintro _ _ ⟨⟩)⟩

theorem admits_receive (ix : Intake) (kind : WatchKind) (path : String) :
    Admits ix (ix.receive kind path) := by
  unfold receive
  split
  · exact ⟨winds_nil rfl rfl (Nat.le_refl _), Nat.le_refl _, rfl, rfl, rfl, rfl, id,
      (by rintro _ _ ⟨⟩)⟩
  · dsimp only
    have harrived : Winds ix []
        { ix with ticket := ix.ticket + 1, latest := ix.latest.insert path ix.ticket } :=
      winds_nil rfl rfl (Nat.le_succ _)
    split
    · have hadmits := admits_accept
        { ix with ticket := ix.ticket + 1, latest := ix.latest.insert path ix.ticket }
        ⟨kind, path, none, 0, ix.ticket⟩
      exact ⟨harrived.trans hadmits.winds, (Nat.le_succ _).trans hadmits.ticket, hadmits.batch,
        hadmits.destroyed, hadmits.busy, hadmits.stage, hadmits.attended, hadmits.waits⟩
    · refine ⟨harrived, Nat.le_succ _, rfl, rfl, rfl, rfl, id, ?_⟩
      intro request waiting hturn
      cases hturn
      rfl

theorem admits_lookedUp (ix : Intake) (n : Nat) (kind : WatchKind) (path : String)
    (result : Except Failure Entry) : Admits ix (ix.lookedUp n kind path result) := by
  cases result with
  | ok e => exact admits_accept ix ⟨kind, path, some e, 0, n⟩
  | error f =>
    unfold lookedUp
    dsimp only
    split
    · split <;>
      exact ⟨winds_nil rfl rfl (Nat.le_refl _), Nat.le_refl _, rfl, rfl, rfl, rfl, id,
        (by rintro _ _ ⟨⟩)⟩
    · exact admits_failed ix f

/-- The purpose that a call of an intake has from its beginning. -/
def Call.purpose? : Call → Option Purpose
  | .change _ _ | .directoryChange _ _ => none
  | .batch ticket => some (.timed ticket)
  | .flush => some .flush
  | .destroy => some .destroy

theorem begin_acts_or_admits (ix : Intake) (call : Call) :
    (∃ purpose, call.purpose? = some purpose ∧ Acts ix purpose (ix.begin call)) ∨
      call.purpose? = none ∧ Admits ix (ix.begin call) := by
  cases call with
  | change kind path =>
    refine .inr ⟨rfl, ?_⟩
    simp only [Intake.begin, beginChange]
    split
    · exact admits_receive ..
    · exact admits_failed ..
  | directoryChange kind path =>
    refine .inr ⟨rfl, ?_⟩
    simp only [Intake.begin, beginDirectoryChange]
    split
    · split
      · exact admits_receive ..
      · exact admits_failed ..
    · exact admits_failed ..
  | batch ticket => exact .inl ⟨_, rfl, acts_process ..⟩
  | flush =>
    have hpurpose : ∀ ticket, Purpose.flush ≠ .timed ticket := by
      intro ticket h
      cases h
    exact .inl ⟨_, rfl, acts_beginFlush ix hpurpose⟩
  | destroy => exact .inl ⟨_, rfl, acts_destroy ix⟩

theorem Finishes.after {plain : Work} (h : Finishes purpose plain work)
    (effects more : List Effect) : Finishes purpose (plain.after effects) (work.after more) :=
  ⟨h.missed, h.options, h.processing, h.stage, h.events, h.queue⟩

theorem finishes_conclude (ix : Intake) (purpose : Purpose) :
    Finishes purpose (ix.conclude .flush) (ix.conclude purpose) := by
  cases purpose with
  | timed ticket => exact ⟨rfl, rfl, rfl, rfl, rfl, .inl rfl⟩
  | flush => exact ⟨rfl, rfl, rfl, rfl, rfl, .inl rfl⟩
  | destroy => exact ⟨rfl, rfl, rfl, rfl, rfl, .inr ⟨rfl, _, rfl⟩⟩

theorem finishes_nextRemoval (ix : Intake) (round : Round) :
    Finishes round.purpose (ix.nextRemoval { round with purpose := .flush })
      (ix.nextRemoval round) := by
  unfold nextRemoval
  cases round.removals with
  | nil =>
    unfold roundOver
    dsimp only
    split
    · exact (finishes_conclude _ round.purpose).after _ _
    · exact (finishes_conclude _ round.purpose).after _ _
  | cons c rest => exact ⟨rfl, rfl, rfl, rfl, rfl, .inl rfl⟩

theorem finishes_process (ix : Intake) (purpose : Purpose) :
    Finishes purpose (ix.process .flush) (ix.process purpose) := by
  unfold process
  split
  · exact finishes_conclude ix purpose
  · dsimp only
    split
    · exact finishes_nextRemoval _ ⟨purpose, ix.queue.values.filter Change.isRemoval, []⟩
    · exact ⟨rfl, rfl, rfl, rfl, rfl, .inl rfl⟩

theorem finishes_flushNow (ix : Intake) (purpose : Purpose) :
    Finishes purpose (ix.flushNow .flush) (ix.flushNow purpose) :=
  (finishes_process _ purpose).after _ _

theorem finishes_beginFlush (ix : Intake) (purpose : Purpose) :
    Finishes purpose (ix.beginFlush .flush) (ix.beginFlush purpose) := by
  unfold beginFlush
  dsimp only
  split
  · exact ⟨rfl, rfl, rfl, rfl, rfl, .inl rfl⟩
  · exact (finishes_flushNow _ purpose).after _ _

theorem finishes_stored (ix : Intake) (stores : List Change) (round : Round)
    (result : Except Failure Unit) :
    Finishes round.purpose (ix.stored stores { round with purpose := .flush } result)
      (ix.stored stores round result) := by
  cases result with
  | ok _ => exact finishes_nextRemoval ix round
  | error f =>
    exact (finishes_nextRemoval ix { round with failed := round.failed ++ stores }).after _ _

theorem finishes_removed (ix : Intake) (c : Change) (round : Round)
    (result : Except Failure Unit) :
    Finishes round.purpose (ix.removed c { round with purpose := .flush } result)
      (ix.removed c round result) := by
  cases result with
  | ok _ => exact finishes_nextRemoval ix round
  | error f =>
    exact (finishes_nextRemoval ix { round with failed := round.failed ++ [c] }).after _ _

/-- Work on behalf of whoever it is begins a batch or lets the changes rest. -/
theorem begin_batch_cases (ix : Intake) {call : Call} {purpose : Purpose}
    (hpurpose : call.purpose? = some purpose) : ∃ plain,
      (Rests ix plain ∨ ∃ calls rest, Takes ix calls rest plain) ∧
        Finishes purpose plain (ix.begin call) := by
  have hflush : Purpose.flush ≠ .destroy := nofun
  cases call with
  | change kind path => cases hpurpose
  | directoryChange kind path => cases hpurpose
  | batch ticket =>
    cases hpurpose
    exact ⟨_, process_cases ix hflush, finishes_process ix (.timed ticket)⟩
  | flush =>
    cases hpurpose
    exact ⟨_, beginFlush_cases ix hflush, finishes_beginFlush ix .flush⟩
  | destroy =>
    cases hpurpose
    exact ⟨_, beginFlush_cases ix hflush, (finishes_beginFlush ix .destroy).after [] [.detach]⟩

/-- A call that is made for no purpose brings a change in or is turned away. -/
theorem begin_change_cases (ix : Intake) {call : Call} (hpurpose : call.purpose? = none) :
    (∃ kind path, ix.destroyed = false ∧ ix.arrival? call = some (kind, path) ∧
        ix.begin call = ix.receive kind path) ∨
      ix.arrival? call = none ∧ ∃ result, ix.begin call = ⟨ix, [], .done result⟩ := by
  have hended (hdestroyed : ix.destroyed = true) (kind : WatchKind) (path : String) :
      ∃ result, ix.receive kind path = ⟨ix, [], .done result⟩ := by
    rw [receive, if_pos hdestroyed]
    exact ⟨_, rfl⟩
  cases call with
  | change kind path =>
    simp only [arrival?, Intake.begin, beginChange]
    cases WatchKind.ofWord? kind with
    | none => exact .inr ⟨by split <;> rfl, _, rfl⟩
    | some k =>
      cases hdestroyed : ix.destroyed with
      | true => exact .inr ⟨rfl, hended hdestroyed k path⟩
      | false => exact .inl ⟨k, path, rfl, rfl, rfl⟩
  | directoryChange kind path =>
    simp only [arrival?, Intake.begin, beginDirectoryChange]
    cases WatchKind.ofWord? kind with
    | none => exact .inr ⟨by split <;> rfl, _, rfl⟩
    | some k =>
      cases hdirectory : k.ofDirectory with
      | false =>
        refine .inr ⟨?_, ?_⟩
        · rw [Option.filter_some, hdirectory]
          split <;> rfl
        · dsimp only
          rw [hdirectory, if_neg Bool.false_ne_true]
          exact ⟨_, rfl⟩
      | true =>
        dsimp only
        rw [hdirectory, if_pos rfl]
        cases hdestroyed : ix.destroyed with
        | true => exact .inr ⟨rfl, hended hdestroyed k path⟩
        | false =>
          refine .inl ⟨k, path, rfl, ?_, rfl⟩
          rw [if_neg Bool.false_ne_true, Option.filter_some, hdirectory]
          rfl
  | batch ticket => cases hpurpose
  | flush => cases hpurpose
  | destroy => cases hpurpose

theorem stored_processing (hbusy : ix.processing = true) (stores : List Change) (round : Round)
    (result : Except Failure Unit) : (ix.stored stores round result).state.processing =
      (stageAfter (ix.stored stores round result).turn).isSome := by
  cases result with
  | ok _ => exact nextRemoval_processing hbusy round
  | error f => exact nextRemoval_processing hbusy { round with failed := round.failed ++ stores }

theorem removed_processing (hbusy : ix.processing = true) (c : Change) (round : Round)
    (result : Except Failure Unit) : (ix.removed c round result).state.processing =
      (stageAfter (ix.removed c round result).turn).isSome := by
  cases result with
  | ok _ => exact nextRemoval_processing hbusy round
  | error f => exact nextRemoval_processing hbusy { round with failed := round.failed ++ [c] }

/-- Nothing about arrivals depends on timers or on what is forgotten. -/
theorem Arrivals.rest {T : List Event} (h : Arrivals ix T) (hticket : ix.ticket ≤ ix'.ticket)
    (hlatest : ∀ path n, ix'.latest.get? path = some n → ix.latest.get? path = some n) :
    Arrivals ix' T :=
  ⟨fun i n kind path hi => Nat.lt_of_lt_of_le (h.below i n kind path hi) hticket, h.rising, h.known,
    fun path n hn => h.latest path n (hlatest path n hn)⟩

theorem Arrivals.append {T events : List Event} (h : Arrivals ix T)
    (harrived : ∀ n k p, .arrived n k p ∉ events) (hqueued : ∀ q, .queued q ∉ events) :
    Arrivals ix (T ++ events) := by
  induction events generalizing T with
  | nil => exact (List.append_nil T).symm ▸ h
  | cons e events ih =>
    rw [List.append_cons]
    refine ih (h.concat ?_ ?_) ?_ ?_
    · exact fun n k p he => harrived n k p (he ▸ List.mem_cons_self)
    · exact fun q he => hqueued q (he ▸ List.mem_cons_self)
    · exact fun n k p he => harrived n k p (List.mem_cons_of_mem _ he)
    · exact fun q he => hqueued q (List.mem_cons_of_mem _ he)

theorem arrivals_accept {T : List Event} (h : Arrivals ix T) (hlive : ix.destroyed = false)
    {c : Change} (hlatest : ix.latest.get? c.path = some c.arrival)
    (harrived : ∃ i : Nat, T[i]? = some (.arrived c.arrival c.kind c.path)) :
    Arrivals (ix.accept c).state (T ++ [.queued c]) := by
  rw [Intake.accept, if_pos hlatest, enqueue, if_neg (by rw [hlive]; exact Bool.false_ne_true)]
  exact (h.enqueue harrived).rest (Nat.le_succ _) fun _ _ hn => hn

/-- What a call waits to find out has arrived. -/
def Turn.Arrived (T : List Event) (turn : Turn Request Waiting Unit) : Prop :=
  ∀ request n kind path, turn = .ask request (.lookingUp n kind path) →
    ∃ i : Nat, T[i]? = some (.arrived n kind path)

theorem arrivals_receive {T : List Event} (h : Arrivals ix T) (hlive : ix.destroyed = false)
    (kind : WatchKind) (path : String) :
    let T' := T ++ .arrived ix.ticket kind path ::
      if kind.isRemoval then [.queued ⟨kind, path, none, 0, ix.ticket⟩] else []
    Arrivals (ix.receive kind path).state T' ∧ Turn.Arrived T' (ix.receive kind path).turn := by
  have harrived := h.arrive kind path
  have hlast : (T ++ [Event.arrived ix.ticket kind path])[T.length]? =
      some (.arrived ix.ticket kind path) := List.getElem?_concat_length ..
  have hnot : ¬ix.destroyed = true := by
    rw [hlive]
    exact Bool.false_ne_true
  rw [receive, if_neg hnot]
  dsimp only
  split
  · rw [List.append_cons]
    refine ⟨arrivals_accept harrived hlive ?_ ⟨_, hlast⟩, ?_⟩
    · rw [OrderedMap.get?_insert, if_pos rfl]
    · intro request n k p hturn
      rw [accept_done] at hturn
      cases hturn
  · refine ⟨harrived, ?_⟩
    intro request n k p hturn
    cases hturn
    exact ⟨T.length, hlast⟩

theorem arrivals_lookedUp {T : List Event} (h : Arrivals ix T) {n : Nat} {kind : WatchKind}
    {path : String} (harrived : ∃ i : Nat, T[i]? = some (.arrived n kind path))
    (result : Except Failure Entry) :
    Arrivals (ix.lookedUp n kind path result).state (T ++ ix.foundEvents n kind path result) := by
  have hforgotten : Arrivals { ix with latest := ix.latest.erase path } T := by
    refine h.rest (Nat.le_refl _) ?_
    intro p m hm
    rw [OrderedMap.get?_erase] at hm
    split at hm
    · cases hm
    · exact hm
  cases result with
  | error f =>
    rw [foundEvents, List.append_nil]
    unfold lookedUp
    dsimp only
    split
    · split
      · exact hforgotten
      · exact h
    · exact h
  | ok e =>
    rw [foundEvents]
    by_cases hlatest : ix.latest.get? path = some n
    · rw [decide_eq_true hlatest, Bool.and_true]
      cases hdestroyed : ix.destroyed with
      | true =>
        rw [lookedUp, Intake.accept, if_pos hlatest, enqueue, if_pos hdestroyed]
        exact (List.append_nil T).symm ▸ hforgotten
      | false => exact arrivals_accept h hdestroyed hlatest harrived
    · rw [decide_eq_false hlatest, Bool.and_false, lookedUp, Intake.accept, if_neg hlatest]
      exact (List.append_nil T).symm ▸ h

end Works

end LiveIndex.Intake
