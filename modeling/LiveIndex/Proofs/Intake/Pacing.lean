import LiveIndex.Proofs.Intake.Waking

/-! How the work of an intake paces itself. It may take timers back or restart the quiet timer,
always with the quiet time; the gather timer and the start of batches are left to the timers
themselves. Work that queues a change restarts the quiet timer. -/

namespace LiveIndex.Intake

/-- Whether an effect winds no timer but the quiet timer, that with the quiet time and under a new
ticket, and starts no batch. -/
def Effect.Quieting (ix : Intake) : Effect → Prop
  | .armQuiet ticket delay => ix.ticket ≤ ticket ∧ delay = ix.options.debounce
  | .armGather _ _ | .startBatch _ => False
  | .log _ _ | .disarm _ | .detach => True

/-- A state after effects that wind at most the quiet timer: each timer that it knows of was known
before, or is the quiet timer and was restarted. -/
structure Paced (ix : Intake) (effects : List Effect) (ix' : Intake) : Prop where
  options : ix'.options = ix.options
  ticket : ix.ticket ≤ ix'.ticket
  quieting : ∀ e ∈ effects, e.Quieting ix
  quiet : ∀ t ∈ ix'.quietTimer, t ∈ ix.quietTimer ∨ .armQuiet t ix.options.debounce ∈ effects
  gather : ∀ g ∈ ix'.gatherTimer, g ∈ ix.gatherTimer

section Effects

variable {ix ix' ix'' : Intake} {effects more : List Effect}

theorem Paced.trans (h : Paced ix effects ix') (h' : Paced ix' more ix'') :
    Paced ix (effects ++ more) ix'' := by
  refine ⟨h'.options.trans h.options, h.ticket.trans h'.ticket, ?_, ?_, ?_⟩
  · intro e he
    rcases List.mem_append.mp he with he | he
    · exact h.quieting e he
    · have hlater := h'.quieting e he
      cases e with
      | armQuiet t delay =>
        obtain ⟨hticket, hdelay⟩ := hlater
        rw [h.options] at hdelay
        exact ⟨h.ticket.trans hticket, hdelay⟩
      | armGather _ _ => exact hlater
      | startBatch _ => exact hlater
      | log _ _ => exact trivial
      | disarm _ => exact trivial
      | detach => exact trivial
  · intro t ht
    rcases h'.quiet t ht with hbefore | harmed
    · exact (h.quiet t hbefore).imp_right (List.mem_append_left _)
    · rw [h.options] at harmed
      exact .inr (List.mem_append_right _ harmed)
  · exact fun g hg => h.gather g (h'.gather g hg)

/-- Effects that wind nothing, where the timers stay as they are. -/
theorem paced_idle (heffects : ∀ e ∈ effects, e.Quieting ix) (hoptions : ix'.options = ix.options)
    (hticket : ix.ticket ≤ ix'.ticket) (hquiet : ix'.quietTimer = ix.quietTimer)
    (hgather : ix'.gatherTimer = ix.gatherTimer) : Paced ix effects ix' :=
  ⟨hoptions, hticket, heffects, fun _ ht => .inl (hquiet ▸ ht), fun _ hg => hgather ▸ hg⟩

theorem paced_nil (hoptions : ix'.options = ix.options) (hticket : ix.ticket ≤ ix'.ticket)
    (hquiet : ix'.quietTimer = ix.quietTimer) (hgather : ix'.gatherTimer = ix.gatherTimer) :
    Paced ix [] ix' :=
  paced_idle (fun _ he => absurd he List.not_mem_nil) hoptions hticket hquiet hgather

theorem paced_refl (ix : Intake) : Paced ix [] ix :=
  paced_nil rfl (Nat.le_refl _) rfl rfl

theorem paced_log (ix : Intake) (level : Level) (text : String) : Paced ix [.log level text] ix :=
  paced_idle (List.forall_mem_singleton.mpr trivial) rfl (Nat.le_refl _) rfl rfl

theorem quieting_disarms (ix : Intake) (timer : Option Nat) :
    ∀ e ∈ timer.toList.map Effect.disarm, e.Quieting ix := by
  intro e he
  obtain ⟨t, -, rfl⟩ := List.mem_map.mp he
  exact trivial

theorem paced_awaitQuiet (ix : Intake) : Paced ix ix.awaitQuiet.2 ix.awaitQuiet.1 := by
  refine ⟨rfl, Nat.le_succ _, ?_, ?_, fun _ hg => hg⟩
  · intro e he
    rcases List.mem_append.mp he with he | he
    · exact quieting_disarms ix ix.quietTimer e he
    · rw [List.mem_singleton.mp he]
      exact ⟨Nat.le_refl _, rfl⟩
  · rintro t ⟨⟩
    exact .inr (List.mem_append_right _ (List.mem_singleton_self _))

theorem paced_disarmTimers (ix : Intake) : Paced ix ix.disarmTimers.2 ix.disarmTimers.1 := by
  refine ⟨rfl, Nat.le_refl _, ?_, nofun, nofun⟩
  intro e he
  rcases List.mem_append.mp he with he | he
  · exact quieting_disarms ix ix.quietTimer e he
  · exact quieting_disarms ix ix.gatherTimer e he

theorem paced_retryAll (ix : Intake) (failed : List Change) :
    Paced ix (ix.retryAll failed).2 (ix.retryAll failed).1 := by
  have hretry (ix : Intake) (c : Change) : Paced ix (ix.retry c).2 (ix.retry c).1 := by
    unfold Intake.retry
    split
    · exact paced_refl ix
    · split
      · exact paced_idle (List.forall_mem_singleton.mpr trivial) rfl (Nat.le_refl _) rfl rfl
      · exact paced_nil rfl (Nat.le_refl _) rfl rfl
  induction failed generalizing ix with
  | nil => exact paced_refl ix
  | cons c rest ih => exact (hretry ix c).trans (ih (ix.retry c).1)

end Effects

section Works

variable (ix : Intake)

theorem paced_conclude (purpose : Purpose) :
    Paced ix (ix.conclude purpose).effects (ix.conclude purpose).state := by
  cases purpose with
  | timed ticket => exact paced_nil rfl (Nat.le_refl _) rfl rfl
  | flush => exact paced_refl ix
  | destroy =>
    obtain ⟨-, -, hquieting, -, -⟩ := paced_disarmTimers ix
    exact ⟨rfl, Nat.le_refl _, hquieting, nofun, nofun⟩

theorem paced_roundOver (round : Round) :
    Paced ix (ix.roundOver round).effects (ix.roundOver round).state := by
  have hidle : Paced ix (ix.retryAll round.failed).2
      { (ix.retryAll round.failed).1 with processing := false } := by
    rw [← List.append_nil (ix.retryAll round.failed).2]
    exact (paced_retryAll ix round.failed).trans (paced_nil rfl (Nat.le_refl _) rfl rfl)
  unfold roundOver
  dsimp only
  split
  · exact hidle.trans (paced_conclude _ _)
  · exact (hidle.trans (paced_awaitQuiet _)).trans (paced_conclude _ _)

theorem paced_nextRemoval (round : Round) :
    Paced ix (ix.nextRemoval round).effects (ix.nextRemoval round).state := by
  unfold nextRemoval
  split
  · exact paced_roundOver ix round
  · exact paced_refl ix

theorem paced_process (purpose : Purpose) :
    Paced ix (ix.process purpose).effects (ix.process purpose).state := by
  have htaken : Paced ix [] { ix with processing := true, queue := .empty } :=
    paced_nil rfl (Nat.le_refl _) rfl rfl
  unfold process
  split
  · exact paced_conclude ix purpose
  · dsimp only
    split
    · exact htaken.trans (paced_nextRemoval _ _)
    · exact htaken

theorem paced_flushNow (purpose : Purpose) :
    Paced ix (ix.flushNow purpose).effects (ix.flushNow purpose).state :=
  (paced_disarmTimers ix).trans (paced_process _ purpose)

theorem paced_beginFlush (purpose : Purpose) :
    Paced ix (ix.beginFlush purpose).effects (ix.beginFlush purpose).state := by
  unfold beginFlush
  dsimp only
  split
  · exact paced_disarmTimers ix
  · exact (paced_disarmTimers ix).trans (paced_flushNow _ purpose)

theorem paced_stored (stores : List Change) (round : Round) (result : Except Failure Unit) :
    Paced ix (ix.stored stores round result).effects (ix.stored stores round result).state := by
  cases result with
  | ok _ => exact paced_nextRemoval ix round
  | error f => exact (paced_log ix _ _).trans (paced_nextRemoval ix _)

theorem paced_removed (c : Change) (round : Round) (result : Except Failure Unit) :
    Paced ix (ix.removed c round result).effects (ix.removed c round result).state := by
  cases result with
  | ok _ => exact paced_nextRemoval ix round
  | error f => exact (paced_log ix _ _).trans (paced_nextRemoval ix _)

theorem paced_accept (c : Change) :
    Paced ix (ix.accept c).effects (ix.accept c).state := by
  unfold accept
  split
  · unfold enqueue
    dsimp only
    split
    · exact paced_nil rfl (Nat.le_refl _) rfl rfl
    · have hqueued : Paced ix []
          { ix with latest := ix.latest.erase c.path, queue := ix.queue.insert c.path c } :=
        paced_nil rfl (Nat.le_refl _) rfl rfl
      exact hqueued.trans (paced_awaitQuiet _)
  · exact paced_refl ix

theorem paced_receive (kind : WatchKind) (path : String) :
    Paced ix (ix.receive kind path).effects (ix.receive kind path).state := by
  have harrived : Paced ix []
      { ix with ticket := ix.ticket + 1, latest := ix.latest.insert path ix.ticket } :=
    paced_nil rfl (Nat.le_succ _) rfl rfl
  unfold receive
  split
  · exact paced_refl ix
  · dsimp only
    split
    · exact harrived.trans (paced_accept _ _)
    · exact harrived

theorem paced_lookedUp (n : Nat) (kind : WatchKind) (path : String)
    (result : Except Failure Entry) :
    Paced ix (ix.lookedUp n kind path result).effects
      (ix.lookedUp n kind path result).state := by
  cases result with
  | ok e => exact paced_accept ix _
  | error f =>
    unfold lookedUp
    dsimp only
    split
    · split
      · exact paced_nil rfl (Nat.le_refl _) rfl rfl
      · exact paced_refl ix
    · exact paced_refl ix

theorem paced_begin (call : Call) :
    Paced ix (ix.begin call).effects (ix.begin call).state := by
  cases call with
  | change kind path =>
    simp only [begin, beginChange]
    split
    · exact paced_receive ix _ path
    · exact paced_refl ix
  | directoryChange kind path =>
    simp only [begin, beginDirectoryChange]
    split
    · split
      · exact paced_receive ix _ path
      · exact paced_refl ix
    · exact paced_refl ix
  | batch ticket => exact paced_process ix _
  | flush => exact paced_beginFlush ix _
  | destroy =>
    have hdetached : Paced ix [.detach] ix :=
      paced_idle (List.forall_mem_singleton.mpr trivial) rfl (Nat.le_refl _) rfl rfl
    exact hdetached.trans (paced_beginFlush ix _)

/-- A quiet timer that is known after work has been restarted by it. -/
def Restarted (ix : Intake) (work : Work) : Prop :=
  ∀ t ∈ work.state.quietTimer, .armQuiet t ix.options.debounce ∈ work.effects

theorem restarted_accept (hlive : ix.destroyed = false) {c : Change}
    (hlatest : ix.latest.get? c.path = some c.arrival) : Restarted ix (ix.accept c) := by
  have hnot : ¬ix.destroyed = true := by
    rw [hlive]
    exact Bool.false_ne_true
  intro t ht
  rw [accept, if_pos hlatest, enqueue, if_neg hnot] at ht ⊢
  cases ht
  exact List.mem_append_right _ (List.mem_singleton_self _)

theorem restarted_receive (hlive : ix.destroyed = false) {kind : WatchKind}
    (hkind : kind.isRemoval = true) (path : String) : Restarted ix (ix.receive kind path) := by
  have hnot : ¬ix.destroyed = true := by
    rw [hlive]
    exact Bool.false_ne_true
  have hlatest : (ix.latest.insert path ix.ticket).get? path = some ix.ticket := by
    rw [OrderedMap.get?_insert, if_pos rfl]
  rw [receive, if_neg hnot]
  dsimp only
  rw [if_pos hkind]
  exact restarted_accept
    { ix with ticket := ix.ticket + 1, latest := ix.latest.insert path ix.ticket } hlive
    (c := ⟨kind, path, none, 0, ix.ticket⟩) hlatest

end Works

namespace Session

variable {s : Session} {a : Action} {f : Option Flight} {work : Work} {c : Change}

/-- All work of calls paces itself. -/
theorem Doing.paced (hdoing : s.Doing a f work) : Paced s.intake work.effects work.state := by
  cases hdoing with
  | begun _ => exact paced_begin ..
  | batch ticket => exact paced_begin s.intake (.batch ticket)
  | found _ _ result => exact paced_lookedUp ..
  | stored _ _ result => exact paced_stored ..
  | removed _ _ result => exact paced_removed ..
  | joined _ _ => exact paced_flushNow ..

theorem restarted_begin {call : Call} (hc : .queued c ∈ s.intake.arrivalEvents call) :
    Restarted s.intake (s.intake.begin call) := by
  have hremoval {kind : WatchKind} {path : String}
      (harrival : s.intake.arrival? call = some (kind, path)) : kind.isRemoval = true := by
    rw [arrivalEvents, harrival] at hc
    dsimp only at hc
    rw [List.mem_cons] at hc
    rcases hc with hc | hc
    · cases hc
    · split at hc
      · next hkind => exact hkind
      · exact absurd hc List.not_mem_nil
  have hsome : s.intake.arrival? call ≠ none := by
    intro hnone
    rw [arrivalEvents, hnone] at hc
    exact absurd hc List.not_mem_nil
  cases call with
  | change kind path =>
    dsimp only [arrival?] at hremoval hsome
    split at hsome
    · exact absurd rfl hsome
    · next hlive =>
      rw [if_neg hlive] at hremoval
      simp only [begin, beginChange]
      cases hword : WatchKind.ofWord? kind with
      | none =>
        rw [hword] at hsome
        exact absurd rfl hsome
      | some k =>
        rw [hword] at hremoval
        exact restarted_receive _ (Bool.eq_false_iff.mpr hlive) (hremoval rfl) path
  | directoryChange kind path =>
    dsimp only [arrival?] at hremoval hsome
    split at hsome
    · exact absurd rfl hsome
    · next hlive =>
      rw [if_neg hlive] at hremoval
      simp only [begin, beginDirectoryChange]
      cases hword : WatchKind.ofWord? kind with
      | none =>
        rw [hword] at hsome
        exact absurd rfl hsome
      | some k =>
        rw [hword, Option.filter_some] at hremoval hsome
        dsimp only
        split
        · next hdirectory =>
          rw [if_pos hdirectory] at hremoval
          exact restarted_receive _ (Bool.eq_false_iff.mpr hlive) (hremoval rfl) path
        · next hother =>
          rw [if_neg hother] at hsome
          exact absurd rfl hsome
  | batch ticket => exact absurd rfl hsome
  | flush => exact absurd rfl hsome
  | destroy => exact absurd rfl hsome

/-- Work that queues a change restarts the quiet timer. -/
theorem Doing.restarted (hkept : s.Kept) (hdoing : s.Doing a f work)
    (hc : .queued c ∈ s.noted a) : Restarted s.intake work := by
  cases hdoing with
  | begun _ => exact restarted_begin hc
  | batch ticket => exact absurd hc List.not_mem_nil
  | joined _ _ => exact absurd hc List.not_mem_nil
  | stored hf hwaiting result =>
    rw [noted_stored hkept hf hwaiting, List.mem_singleton] at hc
    cases result <;> cases hc
  | removed hf hwaiting result =>
    rw [noted_removed hkept hf hwaiting, List.mem_singleton] at hc
    cases result <;> cases hc
  | found hf hwaiting result =>
    rw [noted_found hkept hf hwaiting] at hc
    cases result with
    | error _ => exact absurd hc List.not_mem_nil
    | ok e =>
      unfold foundEvents at hc
      dsimp only at hc
      split at hc
      · next hlatest =>
        rw [Bool.and_eq_true, Bool.not_eq_true', decide_eq_true_eq] at hlatest
        exact restarted_accept _ hlatest.1 hlatest.2
      · exact absurd hc List.not_mem_nil

end Session

end LiveIndex.Intake
