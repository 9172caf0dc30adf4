import LiveIndex.Proofs.Intake.Handing
import LiveIndex.Proofs.Intake.Retries

/-! What one step of a session does to the changes that the intake holds. Nothing moves, or a change
is queued, or a batch takes the whole queue, or a call of the batch returns and the next one goes
out, or the batch is over and what failed is put back. -/

namespace LiveIndex.Intake

/-- The batch that a call has when it waits after a stretch of work. -/
def stageAfter : Turn Request Waiting Unit → Option Stage
  | .done _ => none
  | .ask _ waiting => waiting.stage?

/-- What a call hands over when it waits after a stretch of work. -/
def eventsAfter : Turn Request Waiting Unit → List Event
  | .done _ => []
  | .ask _ waiting => waiting.events

/-- A call that waits after a stretch of work. -/
def flightsAfter (id : Nat) (ticket : Option Nat) : Turn Request Waiting Unit → List Flight
  | .done _ => []
  | .ask request waiting => [⟨id, ticket, request, waiting⟩]

def answersAfter (id : Nat) : Turn Request Waiting Unit → List (Nat × Except Failure Unit)
  | .done result => [(id, result)]
  | .ask _ _ => []

/-- What is put with the failed changes of a batch when one of its calls returns. -/
def failing (calls : List Change) : Except Failure Unit → List Change
  | .ok _ => []
  | .error _ => calls

/-- Work that leaves alone what an intake holds. -/
structure Rests (ix : Intake) (work : Work) : Prop where
  queue : work.state.queue = ix.queue
  missed : work.state.missed = ix.missed
  options : work.state.options = ix.options
  processing : work.state.processing = ix.processing
  stage : stageAfter work.turn = none
  events : eventsAfter work.turn = []

/-- Work that queues a change. -/
structure Queues (ix : Intake) (c : Change) (work : Work) : Prop where
  queue : work.state.queue = ix.queue.insert c.path c
  missed : work.state.missed = ix.missed
  options : work.state.options = ix.options
  processing : work.state.processing = ix.processing
  stage : stageAfter work.turn = none
  events : eventsAfter work.turn = []

/-- Work that takes the whole queue as a batch and hands over the first of it. -/
structure Takes (ix : Intake) (calls rest : List Change) (work : Work) : Prop where
  all : (calls ++ rest).Perm ix.queue.values
  queue : work.state.queue = .empty
  missed : work.state.missed = ix.missed
  options : work.state.options = ix.options
  idle : ix.processing = false
  busy : work.state.processing = true
  stage : stageAfter work.turn = some ⟨rest, calls, []⟩
  events : eventsAfter work.turn = [.handed calls]

/-- Work that hands over the next changes of a batch. -/
structure Hands (ix : Intake) (calls rest failed : List Change) (work : Work) : Prop where
  queue : work.state.queue = ix.queue
  missed : work.state.missed = ix.missed
  options : work.state.options = ix.options
  stage : stageAfter work.turn = some ⟨rest, calls, failed⟩
  events : eventsAfter work.turn = [.handed calls]

/-- Work that ends a batch. -/
structure Ends (ix : Intake) (failed : List Change) (work : Work) : Prop where
  queue : work.state.queue = (ix.retryAll failed).1.queue
  missed : work.state.missed = (ix.retryAll failed).1.missed
  options : work.state.options = ix.options
  stage : stageAfter work.turn = none
  events : eventsAfter work.turn = []

section Works

variable (ix : Intake)

theorem rests_failed (f : Failure) : Rests ix (.failed ix [] f) :=
  ⟨rfl, rfl, rfl, rfl, rfl, rfl⟩

theorem rests_conclude {purpose : Purpose} (hp : purpose ≠ .destroy) :
    Rests ix (ix.conclude purpose) := by
  cases purpose with
  | timed ticket => exact ⟨rfl, rfl, rfl, rfl, rfl, rfl⟩
  | flush => exact ⟨rfl, rfl, rfl, rfl, rfl, rfl⟩
  | destroy => exact absurd rfl hp

theorem accept_cases (hlive : ix.destroyed = false) (c : Change) :
    (ix.latest.get? c.path = some c.arrival ∧ Queues ix c (ix.accept c)) ∨
      (ix.latest.get? c.path ≠ some c.arrival ∧ Rests ix (ix.accept c)) := by
  unfold Intake.accept
  split
  · next hlatest =>
    refine .inl ⟨hlatest, ?_⟩
    rw [Intake.enqueue, if_neg (by rw [hlive]; exact Bool.false_ne_true)]
    exact ⟨rfl, rfl, rfl, rfl, rfl, rfl⟩
  · next hlatest => exact .inr ⟨hlatest, rfl, rfl, rfl, rfl, rfl, rfl⟩

theorem receive_removal (hlive : ix.destroyed = false) {kind : WatchKind}
    (hkind : kind.isRemoval = true) (path : String) :
    Queues ix ⟨kind, path, none, 0, ix.ticket⟩ (ix.receive kind path) := by
  have hnot : ¬ix.destroyed = true := by
    rw [hlive]
    exact Bool.false_ne_true
  rw [receive, if_neg hnot]
  dsimp only
  rw [if_pos hkind]
  -- The change is the latest of its path, for it has just arrived.
  have hcases := accept_cases
    { ix with ticket := ix.ticket + 1, latest := ix.latest.insert path ix.ticket } hlive
    ⟨kind, path, none, 0, ix.ticket⟩
  rcases hcases with ⟨-, hqueues⟩ | ⟨hlatest, -⟩
  · exact ⟨hqueues.queue, hqueues.missed, hqueues.options, hqueues.processing, hqueues.stage,
      hqueues.events⟩
  · exact absurd (by rw [OrderedMap.get?_insert, if_pos rfl]) hlatest

theorem receive_other (hlive : ix.destroyed = false) {kind : WatchKind}
    (hkind : kind.isRemoval = false) (path : String) : Rests ix (ix.receive kind path) := by
  have hnot : ¬ix.destroyed = true := by
    rw [hlive]
    exact Bool.false_ne_true
  rw [receive, if_neg hnot, hkind]
  exact ⟨rfl, rfl, rfl, rfl, rfl, rfl⟩

theorem rests_lookedUp_error (ticket : Nat) (kind : WatchKind) (path : String) (f : Failure) :
    Rests ix (ix.lookedUp ticket kind path (.error f)) := by
  unfold lookedUp
  dsimp only
  split
  · split <;> exact ⟨rfl, rfl, rfl, rfl, rfl, rfl⟩
  · exact rests_failed ix f

theorem ends_roundOver {round : Round} (hp : round.purpose ≠ .destroy) :
    Ends ix round.failed (ix.roundOver round) := by
  have hoptions := retryAll_options ix round.failed
  unfold roundOver
  dsimp only
  split
  · have hrests := rests_conclude { (ix.retryAll round.failed).1 with processing := false } hp
    exact ⟨hrests.queue, hrests.missed, hrests.options.trans hoptions, hrests.stage, hrests.events⟩
  · have hrests := rests_conclude
      { (ix.retryAll round.failed).1 with processing := false }.awaitQuiet.1 hp
    exact ⟨hrests.queue, hrests.missed, hrests.options.trans hoptions, hrests.stage, hrests.events⟩

/-- A batch goes on with its next removal, and is over when there is none. -/
theorem nextRemoval_cases (round : Round) (hp : round.purpose ≠ .destroy) :
    (∃ c rest, round.removals = c :: rest ∧
        Hands ix [c] rest round.failed (ix.nextRemoval round)) ∨
      (round.removals = [] ∧ Ends ix round.failed (ix.nextRemoval round)) := by
  unfold nextRemoval
  split
  · next hnone => exact .inr ⟨hnone, ends_roundOver ix hp⟩
  · next c rest hsome => exact .inl ⟨c, rest, hsome, rfl, rfl, rfl, rfl, rfl⟩

theorem nextRemoval_answer (round : Round) (f : Failure) :
    (ix.nextRemoval round).turn ≠ .done (.error f) := by
  intro h
  unfold nextRemoval at h
  split at h
  · unfold roundOver at h
    dsimp only at h
    split at h <;>
    · change (conclude _ _).turn = _ at h
      rw [conclude_done] at h
      cases h
  · cases h

/-- A batch that begins takes all that is queued. -/
theorem process_takes (purpose : Purpose) (hidle : ix.processing = false)
    (hsome : ix.queue.isEmpty = false) : ∃ calls rest, Takes ix calls rest (ix.process purpose) := by
  have hall : ((ix.queue.values.filter fun c => !c.isRemoval) ++
      ix.queue.values.filter Change.isRemoval).Perm ix.queue.values :=
    List.perm_append_comm.trans (List.filter_append_perm ..)
  rw [process, hidle, hsome, Bool.or_false, if_neg Bool.false_ne_true]
  dsimp only
  split
  · next hstores =>
    rw [List.isEmpty_iff.mp hstores, List.nil_append] at hall
    -- All that was queued are removals, so there is one to begin with.
    cases hremovals : ix.queue.values.filter Change.isRemoval with
    | nil =>
      rw [hremovals] at hall
      have hempty : ix.queue.isEmpty = true :=
        List.isEmpty_iff.mpr (List.map_eq_nil_iff.mp hall.symm.eq_nil)
      rw [hsome] at hempty
      cases hempty
    | cons c rest =>
      rw [hremovals] at hall
      exact ⟨[c], rest, hall, rfl, rfl, rfl, hidle, rfl, rfl, rfl⟩
  · exact ⟨_, _, hall, rfl, rfl, rfl, hidle, rfl, rfl, rfl⟩

/-- A batch begins unless one is being applied or nothing is queued. -/
theorem process_cases {purpose : Purpose} (hp : purpose ≠ .destroy) :
    Rests ix (ix.process purpose) ∨ ∃ calls rest, Takes ix calls rest (ix.process purpose) := by
  by_cases hidle : (ix.processing || ix.queue.isEmpty) = true
  · rw [process, if_pos hidle]
    exact .inl (rests_conclude ix hp)
  · simp only [Bool.or_eq_true, not_or, Bool.not_eq_true] at hidle
    exact .inr (process_takes ix purpose hidle.1 hidle.2)

theorem flushNow_cases {purpose : Purpose} (hp : purpose ≠ .destroy) :
    Rests ix (ix.flushNow purpose) ∨ ∃ calls rest, Takes ix calls rest (ix.flushNow purpose) := by
  rcases process_cases ix.disarmTimers.1 hp with h | ⟨calls, rest, h⟩
  · exact .inl ⟨h.queue, h.missed, h.options, h.processing, h.stage, h.events⟩
  · exact .inr ⟨calls, rest, h.all, h.queue, h.missed, h.options, h.idle, h.busy, h.stage, h.events⟩

theorem beginFlush_cases {purpose : Purpose} (hp : purpose ≠ .destroy) :
    Rests ix (ix.beginFlush purpose) ∨
      ∃ calls rest, Takes ix calls rest (ix.beginFlush purpose) := by
  unfold beginFlush
  dsimp only
  split
  · exact .inl ⟨rfl, rfl, rfl, rfl, rfl, rfl⟩
  · rcases flushNow_cases ix.disarmTimers.1 hp with h | ⟨calls, rest, h⟩
    · exact .inl ⟨h.queue, h.missed, h.options, h.processing, h.stage, h.events⟩
    · exact .inr
        ⟨calls, rest, h.all, h.queue, h.missed, h.options, h.idle, h.busy, h.stage, h.events⟩

/-- After a call of a batch has returned, the next one goes out, or the batch is over. -/
theorem stored_cases (stores : List Change) (round : Round) (hp : round.purpose ≠ .destroy)
    (result : Except Failure Unit) :
    (∃ c rest, round.removals = c :: rest ∧
        Hands ix [c] rest (round.failed ++ failing stores result) (ix.stored stores round result)) ∨
      (round.removals = [] ∧
        Ends ix (round.failed ++ failing stores result) (ix.stored stores round result)) := by
  cases result with
  | ok _ =>
    rw [failing, List.append_nil]
    exact nextRemoval_cases ix round hp
  | error f =>
    rcases nextRemoval_cases ix { round with failed := round.failed ++ stores } hp with
      ⟨c, rest, hsome, h⟩ | ⟨hnone, h⟩
    · exact .inl ⟨c, rest, hsome, h.queue, h.missed, h.options, h.stage, h.events⟩
    · exact .inr ⟨hnone, h.queue, h.missed, h.options, h.stage, h.events⟩

theorem removed_cases (c : Change) (round : Round) (hp : round.purpose ≠ .destroy)
    (result : Except Failure Unit) :
    (∃ d rest, round.removals = d :: rest ∧
        Hands ix [d] rest (round.failed ++ failing [c] result) (ix.removed c round result)) ∨
      (round.removals = [] ∧
        Ends ix (round.failed ++ failing [c] result) (ix.removed c round result)) := by
  -- But for what is logged, this goes on as after a call that stores one change.
  have hstored := stored_cases ix [c] round hp result
  cases result with
  | ok _ => exact hstored
  | error f =>
    rcases hstored with ⟨d, rest, hsome, h⟩ | ⟨hnone, h⟩
    · exact .inl ⟨d, rest, hsome, h.queue, h.missed, h.options, h.stage, h.events⟩
    · exact .inr ⟨hnone, h.queue, h.missed, h.options, h.stage, h.events⟩

theorem process_answer (purpose : Purpose) (f : Failure) :
    (ix.process purpose).turn ≠ .done (.error f) := by
  intro h
  unfold process at h
  split at h
  · rw [conclude_done] at h
    cases h
  · dsimp only at h
    split at h
    · exact nextRemoval_answer _ _ f h
    · cases h

end Works

namespace Session

/-- What moves between two states of a session. -/
inductive Moves (s t : Session) : Prop
  | nothing (arrivals : List Event) (_ : ∀ e ∈ arrivals, ∃ n kind path, e = .arrived n kind path)
      (_ : t.intake.queue = s.intake.queue) (_ : t.intake.missed = s.intake.missed)
      (_ : t.stages = s.stages) (_ : t.trace = s.trace ++ arrivals)
  | queued (c : Change) (arrivals : List Event)
      (_ : ∀ e ∈ arrivals, ∃ n kind path, e = .arrived n kind path) (_ : c.retries = 0)
      (_ : ∀ q, .queued q ∈ s.trace → q.path = c.path → q.arrival < c.arrival)
      (_ : t.intake.queue = s.intake.queue.insert c.path c)
      (_ : t.intake.missed = s.intake.missed) (_ : t.stages = s.stages)
      (_ : t.trace = s.trace ++ arrivals ++ [.queued c])
  | taken (calls rest : List Change) (_ : (calls ++ rest).Perm s.intake.queue.values)
      (_ : t.intake.queue = .empty) (_ : t.intake.missed = s.intake.missed) (_ : s.stages = [])
      (_ : t.stages = [⟨rest, calls, []⟩]) (_ : t.trace = s.trace ++ [.begun, .handed calls])
  | returned (g : Stage) (result : Except Failure Unit) (c : Change) (rest : List Change)
      (_ : g.waiting = c :: rest) (_ : t.intake.queue = s.intake.queue)
      (_ : t.intake.missed = s.intake.missed) (_ : s.stages = [g])
      (_ : t.stages = [⟨rest, [c], g.failed ++ failing g.current result⟩])
      (_ : t.trace = s.trace ++ [.returned g.current result, .handed [c]])
  | ended (g : Stage) (result : Except Failure Unit) (_ : g.waiting = [])
      (_ : t.intake.queue =
        (s.intake.retryAll (g.failed ++ failing g.current result)).1.queue)
      (_ : t.intake.missed =
        (s.intake.retryAll (g.failed ++ failing g.current result)).1.missed)
      (_ : s.stages = [g]) (_ : t.stages = [])
      (_ : t.trace = s.trace ++ [.returned g.current result])

/-- What a call can fail with: it names a kind of change that there is not, or the metadata that it
asked for cannot be read. -/
def Raises : Action → Failure → Prop
  | .begin (.change kind _), f => WatchKind.ofWord? kind = none ∧ f = unknownKind kind
  | .begin (.directoryChange kind _), f =>
    (∀ k, WatchKind.ofWord? kind = some k → k.ofDirectory = false) ∧
      f = .unknownDirectoryChange
        (Text.quoted (((WatchKind.ofWord? kind).map WatchKind.word).getD kind))
  | .resume _ (.found (.error g)), f => f = g ∧ f.family ≠ .system
  | _, _ => False

/-- What a step does: something moves, the settings stay, and a call that is over has failed only
for a reason of its own. -/
structure Progress (s : Session) (a : Action) (t : Session) : Prop where
  moves : Moves s t
  options : t.intake.options = s.intake.options
  answers : ∃ new, t.answers = s.answers ++ new ∧ ∀ id f, (id, .error f) ∈ new → Raises a f

section Advance

variable (r : Session) (id : Nat) (ticket : Option Nat) (work : Work)

theorem change_answers (intake : Intake) (effects : List Effect) :
    (r.change intake effects).answers = r.answers :=
  foldl_field answers (fun _ e => by cases e <;> rfl) effects _

theorem advance_intake : (r.advance id ticket work).intake = work.state := by
  unfold advance
  dsimp only
  cases work.turn with
  | done result => exact change_intake ..
  | ask request waiting => exact change_intake ..

theorem advance_trace : (r.advance id ticket work).trace =
    r.trace ++ beginning r.intake work.state ++ eventsAfter work.turn := by
  unfold advance
  dsimp only
  cases work.turn with
  | done result =>
    rw [eventsAfter, List.append_nil]
    exact change_trace ..
  | ask request waiting =>
    rw [eventsAfter, note, change_trace]
    rfl

theorem advance_flights : (r.advance id ticket work).flights =
    r.flights ++ flightsAfter id ticket work.turn := by
  unfold advance
  dsimp only
  cases work.turn with
  | done result => simp [note, flightsAfter]
  | ask request waiting => simp [note, flightsAfter]

theorem advance_stages : (r.advance id ticket work).stages =
    r.stages ++ (stageAfter work.turn).toList := by
  unfold advance
  dsimp only
  cases work.turn with
  | done result =>
    simp only [stageAfter, Option.toList_none, List.append_nil, stages, note, change_flights]
  | ask request waiting =>
    simp only [stageAfter, stages, note, change_flights, List.filterMap_append]
    refine congrArg (r.stages ++ ·) ?_
    cases hstage : waiting.stage? with
    | none =>
      simp only [List.filterMap_cons, Flight.stage?, hstage, List.filterMap_nil, Option.toList_none]
    | some g =>
      simp only [List.filterMap_cons, Flight.stage?, hstage, List.filterMap_nil, Option.toList_some]

theorem advance_answers : (r.advance id ticket work).answers =
    r.answers ++ answersAfter id work.turn := by
  unfold advance
  dsimp only
  cases work.turn with
  | done result =>
    rw [answersAfter, change_answers]
    rfl
  | ask request waiting =>
    rw [answersAfter, List.append_nil, note, change_answers]
    rfl

end Advance

/-- A session after some events, before a call of it goes on. -/
structure Noted (s : Session) (events : List Event) (r : Session) : Prop where
  intake : r.intake = s.intake
  trace : r.trace = s.trace ++ events
  answers : r.answers = s.answers

section Steps

variable {s r : Session} {a : Action} {work : Work} {events arrivals : List Event}

theorem beginning_of_unchanged {before after : Intake} (h : after.processing = before.processing) :
    beginning before after = [] := by
  rw [beginning, h, Bool.and_not_self]
  rfl

theorem progress_advance (hr : Noted s events r) {id : Nat} {ticket : Option Nat}
    (hmoves : Moves s (r.advance id ticket work))
    (hoptions : work.state.options = s.intake.options)
    (hraises : ∀ f, work.turn = .done (.error f) → Raises a f) :
    Progress s a (r.advance id ticket work) := by
  refine ⟨hmoves, ?_, answersAfter id work.turn, ?_, ?_⟩
  · rw [advance_intake, hoptions]
  · rw [advance_answers, hr.answers]
  · intro i f hf
    cases hturn : work.turn with
    | done result =>
      rw [hturn] at hf
      cases List.mem_singleton.mp hf
      exact hraises f hturn
    | ask request waiting =>
      rw [hturn] at hf
      cases hf

theorem progress_rests (hr : Noted s arrivals r) (hstages : r.stages = s.stages)
    (harrivals : ∀ e ∈ arrivals, ∃ n kind path, e = .arrived n kind path) (h : Rests s.intake work)
    (hraises : ∀ f, work.turn = .done (.error f) → Raises a f) (id : Nat) (ticket : Option Nat) :
    Progress s a (r.advance id ticket work) := by
  refine progress_advance hr (.nothing arrivals harrivals ?_ ?_ ?_ ?_) h.options hraises
  · rw [advance_intake, h.queue]
  · rw [advance_intake, h.missed]
  · rw [advance_stages, h.stage, Option.toList_none, List.append_nil, hstages]
  · rw [advance_trace, hr.intake, beginning_of_unchanged h.processing, h.events, List.append_nil,
      List.append_nil, hr.trace]

theorem progress_queues {c : Change} (hr : Noted s (arrivals ++ [.queued c]) r)
    (hstages : r.stages = s.stages)
    (harrivals : ∀ e ∈ arrivals, ∃ n kind path, e = .arrived n kind path) (hretries : c.retries = 0)
    (hnewer : ∀ q, .queued q ∈ s.trace → q.path = c.path → q.arrival < c.arrival)
    (h : Queues s.intake c work) (hanswer : ∀ f, work.turn ≠ .done (.error f)) (id : Nat)
    (ticket : Option Nat) : Progress s a (r.advance id ticket work) := by
  refine progress_advance hr (.queued c arrivals harrivals hretries hnewer ?_ ?_ ?_ ?_) h.options
    fun f hf => absurd hf (hanswer f)
  · rw [advance_intake, h.queue]
  · rw [advance_intake, h.missed]
  · rw [advance_stages, h.stage, Option.toList_none, List.append_nil, hstages]
  · rw [advance_trace, hr.intake, beginning_of_unchanged h.processing, h.events, List.append_nil,
      List.append_nil, hr.trace, List.append_assoc]

/-- A batch begins only when no other is being applied. -/
theorem progress_takes (horder : s.Ordered) (hr : Noted s [] r) (hstages : r.stages = s.stages)
    {calls rest : List Change} (h : Takes s.intake calls rest work)
    (hanswer : ∀ f, work.turn ≠ .done (.error f)) (id : Nat) (ticket : Option Nat) :
    Progress s a (r.advance id ticket work) := by
  obtain ⟨⟨stage, hstage, hin⟩, -⟩ := horder
  have hnone : stage = none := by
    have hbusy := hin.busy
    rw [h.idle] at hbusy
    exact Option.not_isSome_iff_eq_none.mp (by rw [← hbusy]; exact Bool.false_ne_true)
  rw [hnone] at hstage
  have hbegun : beginning s.intake work.state = [.begun] := by
    rw [beginning, h.busy, h.idle]
    rfl
  refine progress_advance hr (.taken calls rest h.all ?_ ?_ hstage ?_ ?_) h.options
    fun f hf => absurd hf (hanswer f)
  · rw [advance_intake, h.queue]
  · rw [advance_intake, h.missed]
  · rw [advance_stages, h.stage, hstages, hstage]
    rfl
  · rw [advance_trace, hr.intake, hbegun, h.events, hr.trace, List.append_nil, List.append_assoc]
    rfl

theorem progress_batch (horder : s.Ordered) (hr : Noted s [] r) (hstages : r.stages = s.stages)
    (hcases : Rests s.intake work ∨ ∃ calls rest, Takes s.intake calls rest work)
    (hanswer : ∀ f, work.turn ≠ .done (.error f)) (id : Nat) (ticket : Option Nat) :
    Progress s a (r.advance id ticket work) := by
  rcases hcases with hrests | ⟨calls, rest, htakes⟩
  · refine progress_rests hr hstages ?_ hrests (fun f hf => absurd hf (hanswer f)) id ticket
    intro e he
    cases he
  · exact progress_takes horder hr hstages htakes hanswer id ticket

/-- A call of a batch has returned. -/
theorem progress_returned {g : Stage} {result : Except Failure Unit}
    (horder : InOrder s.intake (some g) s.trace) (hbefore : s.stages = [g])
    (hr : Noted s [.returned g.current result] r) (hafter : r.stages = [])
    (hcases : (∃ c rest, g.waiting = c :: rest ∧
        Hands s.intake [c] rest (g.failed ++ failing g.current result) work) ∨
      (g.waiting = [] ∧ Ends s.intake (g.failed ++ failing g.current result) work))
    (hanswer : ∀ f, work.turn ≠ .done (.error f)) (id : Nat) (ticket : Option Nat) :
    Progress s a (r.advance id ticket work) := by
  have htrace : (r.advance id ticket work).trace =
      s.trace ++ [.returned g.current result] ++ eventsAfter work.turn := by
    rw [advance_trace, hr.intake, beginning_of_busy horder, hr.trace, List.append_nil]
  rcases hcases with ⟨c, rest, hsome, h⟩ | ⟨hnone, h⟩
  · refine progress_advance hr (.returned g result c rest hsome ?_ ?_ hbefore ?_ ?_) h.options
      fun f hf => absurd hf (hanswer f)
    · rw [advance_intake, h.queue]
    · rw [advance_intake, h.missed]
    · rw [advance_stages, h.stage, hafter]
      rfl
    · rw [htrace, h.events, List.append_assoc]
      rfl
  · refine progress_advance hr (.ended g result hnone ?_ ?_ hbefore ?_ ?_) h.options
      fun f hf => absurd hf (hanswer f)
    · rw [advance_intake, h.queue]
    · rw [advance_intake, h.missed]
    · rw [advance_stages, h.stage, hafter]
      rfl
    · rw [htrace, h.events, List.append_nil]

/-- A step that only winds up timers. -/
theorem progress_timers {t : Session} (hr : Noted { s with intake := t.intake } [] t)
    (hqueue : t.intake.queue = s.intake.queue) (hmissed : t.intake.missed = s.intake.missed)
    (hoptions : t.intake.options = s.intake.options) (hstages : t.stages = s.stages) :
    Progress s a t := by
  refine ⟨.nothing [] ?_ hqueue hmissed hstages hr.trace, hoptions, [], ?_, ?_⟩
  · intro e he
    cases he
  · rw [hr.answers, List.append_nil]
  · intro id f hf
    cases hf

theorem progress_receive (horder : s.Ordered) (kind : WatchKind) (path : String) :
    Progress s a ((s.note (.arrived s.intake.ticket kind path ::
        if kind.isRemoval then [.queued ⟨kind, path, none, 0, s.intake.ticket⟩]
        else [])).launch none (s.intake.receive kind path)) := by
  obtain ⟨⟨stage, -, hin⟩, -⟩ := horder
  have harrivals : ∀ e ∈ [Event.arrived s.intake.ticket kind path],
      ∃ n k p, e = .arrived n k p := by
    intro e he
    exact ⟨_, _, _, List.mem_singleton.mp he⟩
  have hanswer : ∀ f, (s.intake.receive kind path).turn ≠ .done (.error f) := by
    intro f hf
    rw [receive, if_neg hin.not_destroyed] at hf
    dsimp only at hf
    split at hf
    · rw [accept_done] at hf
      cases hf
    · cases hf
  cases hkind : kind.isRemoval with
  | true =>
    -- Every change that was queued before has a smaller number.
    have hnewer : ∀ q, .queued q ∈ s.trace → q.path = path → q.arrival < s.intake.ticket := by
      intro q hq _
      obtain ⟨j, hj⟩ := List.getElem?_of_mem hq
      exact hin.arrivals.queued_below hj
    have hr : Noted s ([.arrived s.intake.ticket kind path] ++
        [.queued ⟨kind, path, none, 0, s.intake.ticket⟩])
        { s.note (.arrived s.intake.ticket kind path ::
            [.queued ⟨kind, path, none, 0, s.intake.ticket⟩]) with nextId := s.nextId + 1 } :=
      ⟨rfl, rfl, rfl⟩
    exact progress_queues hr rfl harrivals rfl hnewer (receive_removal _ hin.live hkind path)
      hanswer s.nextId none
  | false =>
    have hr : Noted s [.arrived s.intake.ticket kind path]
        { s.note [.arrived s.intake.ticket kind path] with nextId := s.nextId + 1 } :=
      ⟨rfl, rfl, rfl⟩
    exact progress_rests hr rfl harrivals (receive_other _ hin.live hkind path)
      (fun f hf => absurd hf (hanswer f)) s.nextId none

/-- A call that is turned away fails for a reason of its own. -/
theorem progress_refused {f : Failure} (hraises : Raises a f) :
    Progress s a ((s.note []).launch none (.failed s.intake [] f)) := by
  have hr : Noted s [] { s.note [] with nextId := s.nextId + 1 } := ⟨rfl, rfl, rfl⟩
  refine progress_rests hr rfl ?_ (rests_failed _ f) ?_ s.nextId none
  · intro e he
    cases he
  · intro g hg
    cases hg
    exact hraises

theorem progress_lookedUp (horder : s.Ordered) {f : Flight}
    (hstages : (s.without f).stages = s.stages) (id n : Nat) (kind : WatchKind) (path : String)
    (result : Except Failure Entry) :
    Progress s (.resume id (.found result))
      (((s.without f).note (s.intake.foundEvents n kind path result)).advance f.id f.ticket
        (s.intake.lookedUp n kind path result)) := by
  obtain ⟨⟨stage, -, hin⟩, -⟩ := horder
  have hr : Noted s (s.intake.foundEvents n kind path result)
      ((s.without f).note (s.intake.foundEvents n kind path result)) := ⟨rfl, rfl, rfl⟩
  have hnone : ∀ e ∈ ([] : List Event), ∃ n k p, e = .arrived n k p := by
    intro e he
    cases he
  cases result with
  | ok e =>
    have hanswer : ∀ g, (s.intake.lookedUp n kind path (.ok e)).turn ≠ .done (.error g) := by
      intro g hg
      rw [lookedUp, accept_done] at hg
      cases hg
    rcases accept_cases _ hin.live ⟨kind, path, some e, 0, n⟩ with
      ⟨hlatest, hqueues⟩ | ⟨hlatest, hrests⟩
    · have hnewer : ∀ q, .queued q ∈ s.trace → q.path = path → q.arrival < n := by
        intro q hq hpath
        obtain ⟨j, hj⟩ := List.getElem?_of_mem hq
        exact hin.arrivals.latest path n hlatest j q hj hpath
      have hevents : s.intake.foundEvents n kind path (.ok e) =
          [] ++ [.queued ⟨kind, path, some e, 0, n⟩] := by
        rw [foundEvents, hin.live, decide_eq_true hlatest]
        rfl
      rw [hevents] at hr
      rw [hevents]
      exact progress_queues hr hstages hnone rfl hnewer hqueues hanswer f.id f.ticket
    · have hevents : s.intake.foundEvents n kind path (.ok e) = [] := by
        rw [foundEvents, decide_eq_false hlatest, Bool.and_false]
        rfl
      rw [hevents] at hr
      rw [hevents]
      exact progress_rests hr hstages hnone hrests (fun g hg => absurd hg (hanswer g)) f.id f.ticket
  | error g =>
    refine progress_rests hr hstages hnone (rests_lookedUp_error _ n kind path g) ?_ f.id f.ticket
    intro g' hg'
    unfold lookedUp at hg'
    dsimp only at hg'
    split at hg'
    · split at hg' <;> cases hg'
    · next hfamily =>
      cases hg'
      exact ⟨rfl, hfamily⟩

theorem progress_same : Progress s a s :=
  progress_timers ⟨rfl, (List.append_nil _).symm, rfl⟩ rfl rfl rfl rfl

theorem progress_change (horder : s.Ordered) (kind path : String) :
    Progress s (.begin (.change kind path)) (s.step (.begin (.change kind path))) := by
  obtain ⟨stage, -, hin⟩ := horder.order
  simp only [step, arrivalEvents, arrival?, hin.live, Bool.false_eq_true, if_false, Intake.begin,
    beginChange]
  cases hword : WatchKind.ofWord? kind with
  | none => exact progress_refused ⟨hword, rfl⟩
  | some k => exact progress_receive horder k path

theorem progress_directoryChange (horder : s.Ordered) (kind path : String) :
    Progress s (.begin (.directoryChange kind path))
      (s.step (.begin (.directoryChange kind path))) := by
  obtain ⟨stage, -, hin⟩ := horder.order
  simp only [step, arrivalEvents, arrival?, hin.live, Bool.false_eq_true, if_false, Intake.begin,
    beginDirectoryChange]
  cases hword : WatchKind.ofWord? kind with
  | none =>
    refine progress_refused ⟨?_, ?_⟩
    · intro k hk
      rw [hword] at hk
      cases hk
    · rw [hword]
      rfl
  | some k =>
    rw [Option.filter_some]
    dsimp only
    cases hdirectory : k.ofDirectory with
    | true => exact progress_receive horder k path
    | false =>
      refine progress_refused ⟨?_, ?_⟩
      · intro k' hk'
        rw [hword] at hk'
        cases hk'
        exact hdirectory
      · rw [hword]
        rfl

theorem progress_flush (horder : s.Ordered) :
    Progress s (.begin .flush) (s.step (.begin .flush)) := by
  have hr : Noted s [] { s.note [] with nextId := s.nextId + 1 } := ⟨rfl, rfl, rfl⟩
  have hp : Purpose.flush ≠ .destroy := nofun
  refine progress_batch horder hr rfl (beginFlush_cases _ hp) ?_ s.nextId none
  intro f hf
  unfold beginFlush at hf
  dsimp only at hf
  split at hf
  · cases hf
  · exact process_answer _ .flush f hf

theorem stages_of_flight {f : Flight} (horder : s.Ordered) (hf : f ∈ s.flights) {g : Stage}
    (hg : f.stage? = some g) : s.stages = [g] := by
  obtain ⟨stage, hstages, -⟩ := horder.order
  have hmem : g ∈ s.stages := List.mem_filterMap.mpr ⟨f, hf, hg⟩
  rw [hstages] at hmem ⊢
  rw [Option.mem_toList] at hmem
  rw [hmem]
  rfl

theorem progress_wake (horder : s.Ordered) {id : Nat} {f : Flight}
    (hf : s.flights.find? (·.id = id) = some f) (reply : Reply) :
    Progress s (.resume id reply) (s.wake f reply) := by
  have hmem := List.mem_of_find?_eq_some hf
  obtain ⟨hwaiting, -, hidle, hbatch⟩ := horder.without hf
  have hsame (hnone : f.stage? = none) : (s.without f).stages = s.stages := by
    obtain ⟨l₁, l₂, hsplit, hrest⟩ := eraseP_of_find? hf
    rw [stages, stages, without, hrest, hsplit, List.filterMap_append, List.filterMap_append,
      List.filterMap_cons_none hnone]
  unfold wake
  split
  · next path n kind path' result hrequest hlookup =>
    exact progress_lookedUp horder (hsame (by rw [Flight.stage?, hlookup]; rfl)) id n kind path'
      result
  · next entries stores round result hrequest hstoring =>
    rw [hstoring] at hwaiting
    have hstage : f.stage? = some ⟨round.removals, stores, round.failed⟩ := by
      rw [Flight.stage?, hstoring]
      rfl
    obtain ⟨hafter, hin⟩ := hbatch _ hstage
    have hr : Noted s [.returned stores result] ((s.without f).note [.returned stores result]) :=
      ⟨rfl, rfl, rfl⟩
    refine progress_returned hin (stages_of_flight horder hmem hstage) hr hafter
      (stored_cases _ stores round hwaiting result) ?_ f.id f.ticket
    intro g hg
    cases result with
    | ok _ => exact nextRemoval_answer _ _ g hg
    | error _ => exact nextRemoval_answer _ _ g hg
  · next path c round result hrequest hremoving =>
    rw [hremoving] at hwaiting
    have hstage : f.stage? = some ⟨round.removals, [c], round.failed⟩ := by
      rw [Flight.stage?, hremoving]
      rfl
    obtain ⟨hafter, hin⟩ := hbatch _ hstage
    have hr : Noted s [.returned [c] result] ((s.without f).note [.returned [c] result]) :=
      ⟨rfl, rfl, rfl⟩
    refine progress_returned hin (stages_of_flight horder hmem hstage) hr hafter
      (removed_cases _ c round hwaiting result) ?_ f.id f.ticket
    intro g hg
    cases result with
    | ok _ => exact nextRemoval_answer _ _ g hg
    | error _ => exact nextRemoval_answer _ _ g hg
  · next ticket purpose hrequest hjoining =>
    split
    · exact progress_same
    · rw [hjoining] at hwaiting
      have hr : Noted s [] (s.without f) := ⟨rfl, (List.append_nil _).symm, rfl⟩
      exact progress_batch horder hr (hsame (by rw [Flight.stage?, hjoining]; rfl))
        (flushNow_cases _ hwaiting) (process_answer _ purpose) f.id f.ticket
  · exact progress_same

/-- Every step makes one of the moves, as long as the intake is not ended. -/
theorem progress_step (horder : s.Ordered) (ha : a ≠ .begin .destroy) :
    Progress s a (s.step a) := by
  cases a with
  | begin call =>
    cases call with
    | change kind path => exact progress_change horder kind path
    | directoryChange kind path => exact progress_directoryChange horder kind path
    | batch ticket => exact progress_same
    | flush => exact progress_flush horder
    | destroy => exact absurd rfl ha
  | quiet ticket =>
    simp only [step]
    split
    · refine progress_timers ⟨rfl, ?_, ?_⟩ ?_ ?_ ?_ ?_
      · rw [change_trace, List.append_nil]
      · rw [change_answers]
      · rw [change_intake]
        rfl
      · rw [change_intake]
        rfl
      · rw [change_intake]
        rfl
      · rw [stages, change_flights]
        rfl
    · exact progress_same
  | gather ticket =>
    have hgathered : s.intake.gathered.1.queue = s.intake.queue ∧
        s.intake.gathered.1.missed = s.intake.missed ∧
        s.intake.gathered.1.options = s.intake.options := by
      unfold Intake.gathered
      dsimp only
      split <;> exact ⟨rfl, rfl, rfl⟩
    simp only [step]
    split
    · refine progress_timers ⟨rfl, ?_, ?_⟩ ?_ ?_ ?_ ?_
      · rw [change_trace, List.append_nil]
      · rw [change_answers]
      · rw [change_intake, hgathered.1]
      · rw [change_intake, hgathered.2.1]
      · rw [change_intake, hgathered.2.2]
      · rw [stages, change_flights]
        rfl
    · exact progress_same
  | startBatch ticket =>
    simp only [step]
    split
    · have hr : Noted s [] { s with due := s.due.erase ticket, nextId := s.nextId + 1 } :=
        ⟨rfl, (List.append_nil _).symm, rfl⟩
      have hp : Purpose.timed ticket ≠ .destroy := fun h => by cases h
      exact progress_batch horder hr rfl (process_cases _ hp) (process_answer _ _) s.nextId
        (some ticket)
    · exact progress_same
  | resume id reply =>
    simp only [step]
    split
    · next f hf => exact progress_wake horder hf reply
    · exact progress_same

end Steps

end Session

end LiveIndex.Intake
