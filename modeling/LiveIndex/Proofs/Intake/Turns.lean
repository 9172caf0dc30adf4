import LiveIndex.Proofs.Intake.Purposes

/-! What a step of a session does at any time, also while the intake is being ended. A call begins
or goes on where it waited, does a stretch of work on someone's behalf, and waits again or
answers. -/

namespace LiveIndex.Intake

namespace Session

variable {s r t : Session} {a : Action} {f : Option Flight} {work : Work}

/-- What holds at any time of the calls that are under way and of the batch that is applied. -/
structure Kept (s : Session) : Prop where
  busy : ∃ stage : Option Stage, s.stages = stage.toList ∧ s.intake.processing = stage.isSome
  arrivals : Arrivals s.intake s.trace
  looking : ∀ f ∈ s.flights, ∀ n kind path, f.waiting = .lookingUp n kind path →
    ∃ i : Nat, s.trace[i]? = some (.arrived n kind path)
  asks : ∀ f ∈ s.flights, f.waiting.Asks f.request
  purposes : ∀ f ∈ s.flights, ∀ ticket, f.ticket = some ticket →
    f.purpose? = some (.timed ticket) ∧ f.stage?.isSome = true
  timed : ∀ f ∈ s.flights, ∀ ticket, f.purpose? = some (.timed ticket) → f.ticket = some ticket
  ids : (s.flights.map Flight.id).Nodup
  known : ∀ f ∈ s.flights, f.id < s.nextId
  answered : ∀ x ∈ s.answers, x.1 < s.nextId ∧ ∀ f ∈ s.flights, f.id ≠ x.1

/-- The number under which the work of a step is done. -/
def idOf (s : Session) : Option Flight → Nat
  | none => s.nextId
  | some f => f.id

/-- The batch whose work is done in a step. -/
def ticketOf : Action → Option Flight → Option Nat
  | _, some f => f.ticket
  | .startBatch ticket, none => some ticket
  | _, none => none

/-- On whose behalf work is done in a step. -/
def purposeOf : Action → Option Flight → Option Purpose
  | _, some f => f.purpose?
  | .begin call, none => call.purpose?
  | .startBatch ticket, none => some (.timed ticket)
  | _, none => none

/-- The batches that are due when the work of a step is done. -/
def dueFor (s : Session) : Action → List Nat
  | .startBatch ticket => s.due.erase ticket
  | _ => s.due

/-- A session just before the work of a step is done. -/
def ready (s : Session) (a : Action) : Option Flight → Session
  | some f => { s.without f with trace := s.trace ++ s.noted a }
  | none => { s with nextId := s.nextId + 1, due := s.dueFor a, trace := s.trace ++ s.noted a }

/-- Work that is done in a step, where it is time for it. -/
structure Does (s : Session) (a : Action) (f : Option Flight) (work : Work) : Prop where
  doing : s.Doing a f work
  due : ∀ ticket, a = .startBatch ticket → ticket ∈ s.due
  freed : ∀ g ∈ f, ∀ ticket, g.request = .batch ticket → s.isRunning ticket = false

/-- A step in which a call that ends the intake is over. -/
def Closing (s : Session) (a : Action) : Prop :=
  ∃ f work result, s.Does a f work ∧ purposeOf a f = some .destroy ∧ work.turn = .done result

/-- What a step comes to: nothing happens, or a timer rings, or work is done. -/
inductive Stepped (s : Session) (a : Action) : Session → Prop
  | same : Stepped s a s
  | quiet {ticket : Nat} (ha : a = .quiet ticket) (ht : ticket ∈ s.quietTimers) :
      Stepped s a ({ s with quietTimers := s.quietTimers.erase ticket }.change s.intake.quiet.1
        s.intake.quiet.2)
  | gather {ticket : Nat} (ha : a = .gather ticket) (ht : ticket ∈ s.gatherTimers) :
      Stepped s a ({ s with gatherTimers := s.gatherTimers.erase ticket }.change
        s.intake.gathered.1 s.intake.gathered.2)
  | works {f : Option Flight} {work : Work} (hdoes : s.Does a f work) :
      Stepped s a ((s.ready a f).advance (s.idOf f) (ticketOf a f) work)

theorem stepped_wake {id : Nat} {g : Flight} (hg : s.flights.find? (·.id = id) = some g)
    (reply : Reply) : s.Stepped (.resume id reply) (s.wake g reply) := by
  obtain ⟨number, ticket, request, waiting⟩ := g
  have hresumed (reply : Reply) (t : Nat) (ha : Action.resume id reply = .startBatch t) :
      t ∈ s.due := by
    cases ha
  -- Only a call that joins a batch asks for one.
  have hover {asked : Request} (hasked : ∀ ticket, asked ≠ .batch ticket) :
      ∀ g ∈ some (Flight.mk number ticket asked waiting), ∀ ticket, g.request = .batch ticket →
        s.isRunning ticket = false := by
    rintro g ⟨⟩ t ht
    exact absurd ht (hasked t)
  unfold wake
  dsimp only
  split
  · next path n kind path' result =>
    have hnoted : s.noted (.resume id (.found result)) =
        s.intake.foundEvents n kind path' result := by
      rw [noted, hg]
    have hstepped := Stepped.works ⟨.found hg rfl result, hresumed _, hover fun _ h => by cases h⟩
    rw [ready, hnoted] at hstepped
    exact hstepped
  · next entries stores round result =>
    have hnoted : s.noted (.resume id (.served result)) = [.returned stores result] := by
      rw [noted, hg]
    have hstepped := Stepped.works ⟨.stored hg rfl result, hresumed _, hover fun _ h => by cases h⟩
    rw [ready, hnoted] at hstepped
    exact hstepped
  · next path c round result =>
    have hnoted : s.noted (.resume id (.served result)) = [.returned [c] result] := by
      rw [noted, hg]
    have hstepped := Stepped.works ⟨.removed hg rfl result, hresumed _, hover fun _ h => by cases h⟩
    rw [ready, hnoted] at hstepped
    exact hstepped
  · next awaited purpose =>
    split
    · exact .same
    · next hfree =>
      have hstepped : Stepped s (.resume id .joined) _ := .works ⟨.joined hg rfl, hresumed _, by
        rintro g ⟨⟩ t ht
        cases ht
        exact Bool.eq_false_iff.mpr hfree⟩
      have hnoted : s.noted (.resume id .joined) = [] := rfl
      rw [ready, hnoted, List.append_nil] at hstepped
      exact hstepped
  · exact .same

/-- Every step comes to one of these. -/
theorem step_stepped (s : Session) (a : Action) : s.Stepped a (s.step a) := by
  have hbegin {call : Call} (hcall : ∀ ticket, call ≠ .batch ticket) :
      s.Stepped (.begin call)
        ((s.note (s.intake.arrivalEvents call)).launch none (s.intake.begin call)) :=
    .works ⟨.begun hcall, nofun, by rintro g ⟨⟩⟩
  cases a with
  | begin call =>
    cases call with
    | batch ticket => exact .same
    | change kind path => exact hbegin fun _ => nofun
    | directoryChange kind path => exact hbegin fun _ => nofun
    | flush => exact hbegin fun _ => nofun
    | destroy => exact hbegin fun _ => nofun
  | quiet ticket =>
    simp only [step]
    split
    · next ht => exact .quiet rfl ht
    · exact .same
  | gather ticket =>
    simp only [step]
    split
    · next ht => exact .gather rfl ht
    · exact .same
  | startBatch ticket =>
    simp only [step]
    split
    · next ht =>
      have hstepped := Stepped.works ⟨.batch ticket, fun t ha => by cases ha; exact ht,
        by rintro g ⟨⟩⟩
      have hnoted : s.noted (.startBatch ticket) = [] := rfl
      rw [ready, hnoted, List.append_nil] at hstepped
      exact hstepped
    · exact .same
  | resume id reply =>
    simp only [step]
    split
    · next g hg => exact stepped_wake hg reply
    · exact .same

theorem Kept.idle (h : s.Kept) (hnone : s.stages = []) : s.intake.processing = false := by
  obtain ⟨stage, hstages, hbusy⟩ := h.busy
  rw [hnone] at hstages
  cases stage with
  | none => exact hbusy
  | some g => cases hstages

theorem Kept.stages_of_idle (h : s.Kept) (hidle : s.intake.processing = false) :
    s.stages = [] := by
  obtain ⟨stage, hstages, hbusy⟩ := h.busy
  cases stage with
  | none => exact hstages
  | some g => cases hidle.symm.trans hbusy

/-- A call that goes on takes its batch along. -/
theorem Kept.without (h : s.Kept) {id : Nat} {g : Flight}
    (hg : s.flights.find? (·.id = id) = some g) :
    (g.stage? = none → (s.without g).stages = s.stages) ∧
      ∀ stage, g.stage? = some stage → s.stages = [stage] ∧ (s.without g).stages = [] ∧
        s.intake.processing = true := by
  obtain ⟨stage, hstages, hbusy⟩ := h.busy
  obtain ⟨l₁, l₂, hsplit, hrest⟩ := eraseP_of_find? hg
  have hall : s.stages = l₁.filterMap Flight.stage? ++ (g :: l₂).filterMap Flight.stage? := by
    rw [stages, hsplit, List.filterMap_append]
  have hothers : (s.without g).stages =
      l₁.filterMap Flight.stage? ++ l₂.filterMap Flight.stage? := by
    rw [stages, Session.without, hrest, List.filterMap_append]
  constructor
  · intro hnone
    rw [hothers, hall, List.filterMap_cons_none hnone]
  · intro now hnow
    rw [List.filterMap_cons_some hnow] at hall
    -- There is one batch at most, so it is this one.
    cases stage with
    | none =>
      rw [hall] at hstages
      exact absurd hstages (by simp)
    | some only =>
      rw [hall, Option.toList_some, List.append_eq_singleton_iff] at hstages
      obtain ⟨h₁, h₂⟩ | ⟨-, h₂⟩ := hstages
      · obtain ⟨rfl, hnone⟩ := List.cons.inj h₂
        refine ⟨?_, ?_, hbusy⟩
        · rw [hall, h₁, hnone]
          rfl
        · rw [hothers, h₁, hnone]
          rfl
      · cases h₂

theorem Doing.acts_or_admits (h : s.Kept) (hdoing : s.Doing a f work) :
    (∃ purpose, purposeOf a f = some purpose ∧ Acts s.intake purpose work) ∨
      purposeOf a f = none ∧ Admits s.intake work := by
  cases hdoing with
  | begun hcall => exact begin_acts_or_admits s.intake _
  | batch ticket => exact .inl ⟨_, rfl, acts_process ..⟩
  | found hf hwaiting result =>
    refine .inr ⟨?_, admits_lookedUp ..⟩
    rw [purposeOf, Flight.purpose?, hwaiting]
    rfl
  | stored hf hwaiting result =>
    have hbusy := ((h.without hf).2 _ (by rw [Flight.stage?, hwaiting]; rfl)).2.2
    refine .inl ⟨_, ?_, acts_stored hbusy ..⟩
    rw [purposeOf, Flight.purpose?, hwaiting]
    rfl
  | removed hf hwaiting result =>
    have hbusy := ((h.without hf).2 _ (by rw [Flight.stage?, hwaiting]; rfl)).2.2
    refine .inl ⟨_, ?_, acts_removed hbusy ..⟩
    rw [purposeOf, Flight.purpose?, hwaiting]
    rfl
  | joined hf hwaiting =>
    refine .inl ⟨_, ?_, acts_flushNow ..⟩
    rw [purposeOf, Flight.purpose?, hwaiting]
    rfl

/-- What the work of a step comes to: a change is brought in or nothing is, or a batch begins, or
goes on with a call that has returned. -/
inductive Outcome (s : Session) (a : Action) (f : Option Flight) (work : Work) : Prop
  | rests (hidle : ∀ g ∈ f, g.stage? = none)
      (harrivals : ∀ e ∈ s.noted a, ∃ n kind path, e = .arrived n kind path)
      (hrests : Intake.Rests s.intake work)
  | queues (c : Change) (arrivals : List Event) (hidle : ∀ g ∈ f, g.stage? = none)
      (hnoted : s.noted a = arrivals ++ [.queued c])
      (harrivals : ∀ e ∈ arrivals, ∃ n kind path, e = .arrived n kind path)
      (hretries : c.retries = 0)
      (hnewer : ∀ q, .queued q ∈ s.trace → q.path = c.path → q.arrival < c.arrival)
      (hqueues : Queues s.intake c work)
  | begins (purpose : Purpose) (plain : Work) (hpurpose : purposeOf a f = some purpose)
      (hidle : ∀ g ∈ f, g.stage? = none) (hnoted : s.noted a = [])
      (hplain : Intake.Rests s.intake plain ∨ ∃ calls rest, Takes s.intake calls rest plain)
      (hfinishes : Finishes purpose plain work)
  | goesOn (g : Flight) (stage : Stage) (result : Except Failure Unit) (purpose : Purpose)
      (plain : Work) (hf : f = some g) (hg : g.stage? = some stage)
      (hpurpose : purposeOf a f = some purpose)
      (hnoted : s.noted a = [.returned stage.current result])
      (hplain : (∃ c rest, stage.waiting = c :: rest ∧
          Hands s.intake [c] rest (stage.failed ++ failing stage.current result) plain) ∨
        stage.waiting = [] ∧ Ends s.intake (stage.failed ++ failing stage.current result) plain)
      (hfinishes : Finishes purpose plain work)
      (hbusy : work.state.processing = (stageAfter work.turn).isSome)

section Noted

variable {id : Nat} {g : Flight} (h : s.Kept) (hg : s.flights.find? (·.id = id) = some g)

include h hg

theorem noted_found {n : Nat} {kind : WatchKind} {path : String}
    (hwaiting : g.waiting = .lookingUp n kind path) (result : Except Failure Entry) :
    s.noted (.resume id (.found result)) = s.intake.foundEvents n kind path result := by
  have hasks := h.asks g (List.mem_of_find?_eq_some hg)
  obtain ⟨number, ticket, request, waiting⟩ := g
  cases hwaiting
  obtain ⟨-, rfl⟩ := hasks
  rw [noted, hg]

theorem noted_stored {stores : List Change} {round : Round}
    (hwaiting : g.waiting = .storing stores round) (result : Except Failure Unit) :
    s.noted (.resume id (.served result)) = [.returned stores result] := by
  have hasks := h.asks g (List.mem_of_find?_eq_some hg)
  obtain ⟨number, ticket, request, waiting⟩ := g
  cases hwaiting
  obtain ⟨rfl, -⟩ := hasks
  rw [noted, hg]

theorem noted_removed {c : Change} {round : Round} (hwaiting : g.waiting = .removing c round)
    (result : Except Failure Unit) :
    s.noted (.resume id (.served result)) = [.returned [c] result] := by
  have hasks := h.asks g (List.mem_of_find?_eq_some hg)
  obtain ⟨number, ticket, request, waiting⟩ := g
  cases hwaiting
  obtain ⟨rfl, -⟩ := hasks
  rw [noted, hg]

end Noted

/-- Each change that was queued arrived before the next one does. -/
theorem queued_lt_ticket (h : s.Kept) {q : Change} (hq : .queued q ∈ s.trace) :
    q.arrival < s.intake.ticket := by
  obtain ⟨j, hj⟩ := List.getElem?_of_mem hq
  exact h.arrivals.queued_below hj

theorem outcome_receive (h : s.Kept) {call : Call} {kind : WatchKind} {path : String}
    (hlive : s.intake.destroyed = false) (harrival : s.intake.arrival? call = some (kind, path)) :
    s.Outcome (.begin call) none (s.intake.receive kind path) := by
  have hnoted : s.noted (.begin call) = .arrived s.intake.ticket kind path ::
      if kind.isRemoval then [.queued ⟨kind, path, none, 0, s.intake.ticket⟩] else [] := by
    rw [noted, arrivalEvents, harrival]
  have harrivals : ∀ e ∈ [Event.arrived s.intake.ticket kind path],
      ∃ n kind path, e = .arrived n kind path := fun e he => ⟨_, _, _, List.mem_singleton.mp he⟩
  cases hkind : kind.isRemoval with
  | true =>
    rw [hkind, if_pos rfl] at hnoted
    exact .queues _ [.arrived s.intake.ticket kind path] (by rintro g ⟨⟩) hnoted harrivals rfl
      (fun q hq _ => queued_lt_ticket h hq) (receive_removal _ hlive hkind path)
  | false =>
    rw [hkind, if_neg Bool.false_ne_true] at hnoted
    exact .rests (by rintro g ⟨⟩) (hnoted ▸ harrivals) (receive_other _ hlive hkind path)

theorem outcome_lookedUp (h : s.Kept) {id : Nat} {g : Flight}
    (hg : s.flights.find? (·.id = id) = some g) {n : Nat} {kind : WatchKind} {path : String}
    (hwaiting : g.waiting = .lookingUp n kind path) (result : Except Failure Entry) :
    s.Outcome (.resume id (.found result)) (some g) (s.intake.lookedUp n kind path result) := by
  have hnoted := noted_found h hg hwaiting result
  have hidle : ∀ g' ∈ some g, g'.stage? = none := by
    rintro g' ⟨⟩
    rw [Flight.stage?, hwaiting]
    rfl
  have hnone : ∀ e ∈ ([] : List Event), ∃ n kind path, e = .arrived n kind path :=
    fun _ he => absurd he List.not_mem_nil
  cases result with
  | error f =>
    exact .rests hidle (hnoted ▸ hnone) (rests_lookedUp_error _ n kind path f)
  | ok e =>
    change s.noted _ = if _ then _ else _ at hnoted
    cases hdestroyed : s.intake.destroyed with
    | true =>
      rw [hdestroyed] at hnoted
      refine .rests hidle (hnoted ▸ hnone) ?_
      change Intake.Rests s.intake (s.intake.accept _)
      unfold Intake.accept enqueue
      split <;> exact ⟨rfl, rfl, rfl, rfl, rfl, rfl⟩
    | false =>
      rw [hdestroyed, Bool.not_false, Bool.true_and] at hnoted
      rcases accept_cases _ hdestroyed ⟨kind, path, some e, 0, n⟩ with
        ⟨hlatest, hqueues⟩ | ⟨hlatest, hrests⟩
      · rw [if_pos (decide_eq_true hlatest)] at hnoted
        refine .queues _ [] hidle hnoted hnone rfl ?_ hqueues
        intro q hq hpath
        obtain ⟨j, hj⟩ := List.getElem?_of_mem hq
        exact h.arrivals.latest path n hlatest j q hj hpath
      · rw [decide_eq_false hlatest, if_neg Bool.false_ne_true] at hnoted
        exact .rests hidle (hnoted ▸ hnone) hrests

theorem Doing.outcome (h : s.Kept) (hdoing : s.Doing a f work) : s.Outcome a f work := by
  have hflush : Purpose.flush ≠ .destroy := nofun
  cases hdoing with
  | @begun call hcall =>
    cases hpurpose : call.purpose? with
    | some purpose =>
      obtain ⟨plain, hplain, hfinishes⟩ := begin_batch_cases s.intake hpurpose
      refine .begins purpose plain hpurpose (by rintro g ⟨⟩) ?_ hplain hfinishes
      cases call with
      | change kind path => cases hpurpose
      | directoryChange kind path => cases hpurpose
      | batch ticket => rfl
      | flush => rfl
      | destroy => rfl
    | none =>
      rcases begin_change_cases s.intake hpurpose with ⟨kind, path, hlive, harrival, hbegin⟩ |
        ⟨hnone, result, hbegin⟩
      · rw [hbegin]
        exact outcome_receive h hlive harrival
      · refine .rests (by rintro g ⟨⟩) ?_ ?_
        · rw [noted, arrivalEvents, hnone]
          exact fun _ he => absurd he List.not_mem_nil
        · rw [hbegin]
          exact ⟨rfl, rfl, rfl, rfl, rfl, rfl⟩
  | batch ticket =>
    exact .begins _ _ rfl (by rintro g ⟨⟩) rfl (process_cases s.intake hflush)
      (finishes_process s.intake (.timed ticket))
  | found hf hwaiting result => exact outcome_lookedUp h hf hwaiting result
  | @stored id g hf stores round hwaiting result =>
    have hstage : g.stage? = some ⟨round.removals, stores, round.failed⟩ := by
      rw [Flight.stage?, hwaiting]
      rfl
    have hbusy := ((h.without hf).2 _ hstage).2.2
    have hpurpose : g.purpose? = some round.purpose := by
      rw [Flight.purpose?, hwaiting]
      rfl
    exact .goesOn g _ result _ _ rfl hstage hpurpose (noted_stored h hf hwaiting result)
      (stored_cases s.intake stores { round with purpose := .flush } hflush result)
      (finishes_stored s.intake stores round result) (stored_processing hbusy ..)
  | @removed id g hf c round hwaiting result =>
    have hstage : g.stage? = some ⟨round.removals, [c], round.failed⟩ := by
      rw [Flight.stage?, hwaiting]
      rfl
    have hbusy := ((h.without hf).2 _ hstage).2.2
    have hpurpose : g.purpose? = some round.purpose := by
      rw [Flight.purpose?, hwaiting]
      rfl
    exact .goesOn g _ result _ _ rfl hstage hpurpose (noted_removed h hf hwaiting result)
      (removed_cases s.intake c { round with purpose := .flush } hflush result)
      (finishes_removed s.intake c round result) (removed_processing hbusy ..)
  | @joined id g hf purpose hwaiting =>
    have hpurpose : g.purpose? = some purpose := by
      rw [Flight.purpose?, hwaiting]
      rfl
    refine .begins purpose _ hpurpose ?_ rfl (flushNow_cases s.intake hflush)
      (finishes_flushNow ..)
    rintro g ⟨⟩
    rw [Flight.stage?, hwaiting]
    rfl

/-- A session with another queue. -/
def withQueue (s : Session) (queue : OrderedMap String Change) : Session :=
  { s with intake := { s.intake with queue } }

section Ready

variable (s : Session) (a : Action) (f : Option Flight)

theorem ready_intake : (s.ready a f).intake = s.intake := by
  cases f <;> rfl

theorem ready_trace : (s.ready a f).trace = s.trace ++ s.noted a := by
  cases f <;> rfl

theorem ready_flights : (s.ready a f).flights = s.others f := by
  cases f <;> rfl

theorem ready_answers : (s.ready a f).answers = s.answers := by
  cases f <;> rfl

theorem ready_quietTimers : (s.ready a f).quietTimers = s.quietTimers := by
  cases f <;> rfl

theorem ready_gatherTimers : (s.ready a f).gatherTimers = s.gatherTimers := by
  cases f <;> rfl

end Ready

/-- What becomes of a session in a step: what moves, and what of the settings and of the batch that
is applied stays true. A queue that is cleared when the intake is ended moves as if it were not
cleared. -/
structure Moved (s : Session) (a : Action) (t : Session) : Prop where
  moves : ∃ queue, Moves s (t.withQueue queue) ∧
    (t.intake.queue = queue ∨ s.Closing a ∧ Closed t.intake)
  options : t.intake.options = s.intake.options
  busy : ∃ stage : Option Stage, t.stages = stage.toList ∧ t.intake.processing = stage.isSome

theorem ready_stages (h : s.Kept) (hdoing : s.Doing a f work) :
    ((∀ g ∈ f, g.stage? = none) → (s.ready a f).stages = s.stages) ∧
      ∀ g ∈ f, ∀ stage, g.stage? = some stage →
        s.stages = [stage] ∧ (s.ready a f).stages = [] ∧ s.intake.processing = true := by
  cases f with
  | none => exact ⟨fun _ => rfl, by rintro g ⟨⟩⟩
  | some f =>
    obtain ⟨id, hf⟩ := hdoing.found?
    obtain ⟨hidle, hstage⟩ := h.without hf
    refine ⟨fun hnone => hidle (hnone f rfl), ?_⟩
    rintro g ⟨⟩
    exact hstage

/-- A call that ends the intake leaves it closed when it is done; any other leaves the queue as its
work does. -/
theorem queue_of_finishes (h : s.Kept) (hdoes : s.Does a f work) (id : Nat) (ticket : Option Nat)
    {purpose : Purpose} {plain : Work} (hpurpose : purposeOf a f = some purpose)
    (hfinishes : Finishes purpose plain work) :
    ((s.ready a f).advance id ticket work).intake.queue = plain.state.queue ∨
      s.Closing a ∧ Closed ((s.ready a f).advance id ticket work).intake := by
  rw [advance_intake]
  rcases hfinishes.queue with hsame | ⟨rfl, result, hturn⟩
  · exact .inl hsame
  · rcases hdoes.doing.acts_or_admits h with ⟨purpose, hsome, hacts⟩ | ⟨hnone, -⟩
    · rw [hpurpose] at hsome
      cases hsome
      exact .inr ⟨⟨f, work, result, hdoes, hpurpose, hturn⟩, (hacts.ends result hturn).2⟩
    · rw [hpurpose] at hnone
      cases hnone

/-- A call takes what is queued as its batch, or finds nothing to take. -/
theorem moved_begins (h : s.Kept) (hdoes : s.Does a f work) (id : Nat) (ticket : Option Nat)
    {purpose : Purpose} {plain : Work} (hpurpose : purposeOf a f = some purpose)
    (hidle : ∀ g ∈ f, g.stage? = none) (hnoted : s.noted a = [])
    (hplain : Intake.Rests s.intake plain ∨ ∃ calls rest, Takes s.intake calls rest plain)
    (hfinishes : Finishes purpose plain work) :
    Moved s a ((s.ready a f).advance id ticket work) := by
  obtain ⟨stage, hstages, hbusy⟩ := h.busy
  have hqueue := queue_of_finishes h hdoes id ticket hpurpose hfinishes
  have hintake := advance_intake (s.ready a f) id ticket work
  have hafter := advance_stages (s.ready a f) id ticket work
  have htrace := advance_trace (s.ready a f) id ticket work
  rw [hfinishes.stage, (ready_stages h hdoes.doing).1 hidle] at hafter
  rw [ready_trace, ready_intake, hfinishes.events, hnoted, List.append_nil] at htrace
  rcases hplain with hrests | ⟨calls, rest, htakes⟩
  · have hprocessing := hfinishes.processing.trans hrests.processing
    rw [hrests.stage, Option.toList_none, List.append_nil] at hafter
    rw [beginning_of_unchanged hprocessing, hrests.events, List.append_nil] at htrace
    refine ⟨⟨_, .nothing [] ?_ hrests.queue ?_ hafter htrace, hqueue⟩, ?_, stage, ?_, ?_⟩
    · exact fun _ he => absurd he List.not_mem_nil
    · exact (congrArg Intake.missed hintake).trans (hfinishes.missed.trans hrests.missed)
    · rw [hintake, hfinishes.options, hrests.options]
    · rw [hafter, hstages]
    · rw [hintake, hprocessing, hbusy]
  · -- A batch begins only when no other is being applied.
    have hnone := h.stages_of_idle htakes.idle
    have hprocessing := hfinishes.processing.trans htakes.busy
    have hbegun : beginning s.intake work.state = [.begun] := by
      rw [beginning, hprocessing, htakes.idle]
      rfl
    rw [htakes.stage, hnone] at hafter
    rw [hbegun, htakes.events, List.append_assoc] at htrace
    refine ⟨⟨_, .taken calls rest htakes.all htakes.queue ?_ hnone hafter htrace, hqueue⟩, ?_,
      some ⟨rest, calls, []⟩, hafter, ?_⟩
    · exact (congrArg Intake.missed hintake).trans (hfinishes.missed.trans htakes.missed)
    · rw [hintake, hfinishes.options, htakes.options]
    · rw [hintake, hprocessing]
      rfl

/-- A call in whose batch a call has returned hands the next change over, or is through. -/
theorem moved_goesOn (h : s.Kept) (hdoes : s.Does a f work) (id : Nat) (ticket : Option Nat)
    {g : Flight} {now : Stage} {result : Except Failure Unit} {purpose : Purpose} {plain : Work}
    (hf : f = some g) (hg : g.stage? = some now) (hpurpose : purposeOf a f = some purpose)
    (hnoted : s.noted a = [.returned now.current result])
    (hplain : (∃ c rest, now.waiting = c :: rest ∧
        Hands s.intake [c] rest (now.failed ++ failing now.current result) plain) ∨
      now.waiting = [] ∧ Ends s.intake (now.failed ++ failing now.current result) plain)
    (hfinishes : Finishes purpose plain work)
    (hprocessing : work.state.processing = (stageAfter work.turn).isSome) :
    Moved s a ((s.ready a f).advance id ticket work) := by
  have hqueue := queue_of_finishes h hdoes id ticket hpurpose hfinishes
  have hintake := advance_intake (s.ready a f) id ticket work
  have hafter := advance_stages (s.ready a f) id ticket work
  have htrace := advance_trace (s.ready a f) id ticket work
  obtain ⟨hnow, hothers, hworking⟩ := (ready_stages h hdoes.doing).2 g hf now hg
  have hnone : beginning s.intake work.state = [] := by
    rw [beginning, hworking, Bool.not_true, Bool.and_false]
    rfl
  rw [hfinishes.stage, hothers] at hafter
  rw [ready_trace, ready_intake, hfinishes.events, hnone, hnoted, List.append_nil] at htrace
  rcases hplain with ⟨c, rest, hwaiting, hhands⟩ | ⟨hwaiting, hends⟩
  · rw [hhands.stage] at hafter
    rw [hhands.events, List.append_assoc] at htrace
    refine ⟨⟨_, .returned now result c rest hwaiting hhands.queue ?_ hnow hafter htrace, hqueue⟩,
      ?_, some _, hafter, ?_⟩
    · exact (congrArg Intake.missed hintake).trans (hfinishes.missed.trans hhands.missed)
    · rw [hintake, hfinishes.options, hhands.options]
    · rw [hintake, hprocessing, hfinishes.stage, hhands.stage]
  · rw [hends.stage] at hafter
    rw [hends.events, List.append_nil] at htrace
    refine ⟨⟨_, .ended now result hwaiting hends.queue ?_ hnow hafter htrace, hqueue⟩, ?_, none,
      hafter, ?_⟩
    · exact (congrArg Intake.missed hintake).trans (hfinishes.missed.trans hends.missed)
    · rw [hintake, hfinishes.options, hends.options]
    · rw [hintake, hprocessing, hfinishes.stage, hends.stage]

theorem moved_works (h : s.Kept) (hdoes : s.Does a f work) (id : Nat) (ticket : Option Nat) :
    Moved s a ((s.ready a f).advance id ticket work) := by
  obtain ⟨stage, hstages, hbusy⟩ := h.busy
  have hintake := advance_intake (s.ready a f) id ticket work
  have hafter := advance_stages (s.ready a f) id ticket work
  have htrace := advance_trace (s.ready a f) id ticket work
  rw [ready_trace, ready_intake] at htrace
  cases hdoes.doing.outcome h with
  | rests hidle harrivals hrests =>
    rw [hrests.stage, (ready_stages h hdoes.doing).1 hidle, Option.toList_none, List.append_nil]
      at hafter
    rw [beginning_of_unchanged hrests.processing, hrests.events, List.append_nil, List.append_nil]
      at htrace
    refine ⟨⟨_, .nothing _ harrivals ?_ ?_ hafter htrace, .inl rfl⟩, ?_, stage, ?_, ?_⟩
    · exact (congrArg Intake.queue hintake).trans hrests.queue
    · exact (congrArg Intake.missed hintake).trans hrests.missed
    · rw [hintake, hrests.options]
    · rw [hafter, hstages]
    · rw [hintake, hrests.processing, hbusy]
  | queues c arrivals hidle hnoted harrivals hretries hnewer hqueues =>
    rw [hqueues.stage, (ready_stages h hdoes.doing).1 hidle, Option.toList_none, List.append_nil]
      at hafter
    rw [beginning_of_unchanged hqueues.processing, hqueues.events, List.append_nil, List.append_nil,
      hnoted, ← List.append_assoc] at htrace
    refine ⟨⟨_, .queued c arrivals harrivals hretries hnewer ?_ ?_ hafter htrace, .inl rfl⟩, ?_,
      stage, ?_, ?_⟩
    · exact (congrArg Intake.queue hintake).trans hqueues.queue
    · exact (congrArg Intake.missed hintake).trans hqueues.missed
    · rw [hintake, hqueues.options]
    · rw [hafter, hstages]
    · rw [hintake, hqueues.processing, hbusy]
  | begins purpose plain hpurpose hidle hnoted hplain hfinishes =>
    exact moved_begins h hdoes id ticket hpurpose hidle hnoted hplain hfinishes
  | goesOn g now result purpose plain hf hg hpurpose hnoted hplain hfinishes hprocessing =>
    exact moved_goesOn h hdoes id ticket hf hg hpurpose hnoted hplain hfinishes hprocessing

theorem change_nextId (r : Session) (intake : Intake) (effects : List Effect) :
    (r.change intake effects).nextId = r.nextId :=
  foldl_field nextId (fun _ e => by cases e <;> rfl) effects _

theorem advance_nextId (r : Session) (id : Nat) (ticket : Option Nat) (work : Work) :
    (r.advance id ticket work).nextId = r.nextId := by
  unfold advance
  dsimp only
  cases work.turn <;> exact change_nextId ..

theorem mem_flightsAfter {id : Nat} {ticket : Option Nat} {turn : Turn Request Waiting Unit}
    {g : Flight} (h : g ∈ flightsAfter id ticket turn) :
    g.id = id ∧ g.ticket = ticket ∧ turn = .ask g.request g.waiting := by
  cases turn with
  | done result => cases h
  | ask request waiting =>
    rw [List.mem_singleton.mp h]
    exact ⟨rfl, rfl, rfl⟩

theorem mem_answersAfter {id : Nat} {turn : Turn Request Waiting Unit}
    {x : Nat × Except Failure Unit} (h : x ∈ answersAfter id turn) :
    x.1 = id ∧ turn = .done x.2 := by
  cases turn with
  | done result =>
    rw [List.mem_singleton.mp h]
    exact ⟨rfl, rfl⟩
  | ask request waiting => cases h

/-- What a step notes when its work is done for a purpose is that a call has returned. -/
theorem noted_of_purpose (h : s.Kept) (hdoing : s.Doing a f work) {purpose : Purpose}
    (hpurpose : purposeOf a f = some purpose) :
    (∀ n k p, .arrived n k p ∉ s.noted a) ∧ ∀ q, .queued q ∉ s.noted a := by
  have hreturned (calls : List Change) (result : Except Failure Unit) :
      (∀ n k p, .arrived n k p ∉ [Event.returned calls result]) ∧
        ∀ q, .queued q ∉ [Event.returned calls result] := by
    cases result <;> simp [Event.returned]
  have hnone {events : List Event} (hevents : events = []) :
      (∀ n k p, .arrived n k p ∉ events) ∧ ∀ q, .queued q ∉ events := by
    subst hevents
    exact ⟨fun _ _ _ => List.not_mem_nil, fun _ => List.not_mem_nil⟩
  cases hdoing with
  | @begun call hcall =>
    cases call with
    | change kind path => cases hpurpose
    | directoryChange kind path => cases hpurpose
    | batch ticket => exact hnone rfl
    | flush => exact hnone rfl
    | destroy => exact hnone rfl
  | batch ticket => exact hnone rfl
  | found hf hwaiting result =>
    rw [purposeOf, Flight.purpose?, hwaiting] at hpurpose
    cases hpurpose
  | stored hf hwaiting result =>
    rw [noted_stored h hf hwaiting]
    exact hreturned ..
  | removed hf hwaiting result =>
    rw [noted_removed h hf hwaiting]
    exact hreturned ..
  | joined hf hwaiting => exact hnone rfl

/-- The arrivals are kept in order by what is noted, and what is looked up next has arrived. -/
theorem arrivals_noted (h : s.Kept) (hdoing : s.Doing a f work) :
    Arrivals work.state (s.trace ++ s.noted a) ∧
      Turn.Arrived (s.trace ++ s.noted a) work.turn := by
  rcases hdoing.acts_or_admits h with ⟨purpose, hpurpose, hacts⟩ | ⟨hpurpose, hadmits⟩
  · obtain ⟨harrived, hqueued⟩ := noted_of_purpose h hdoing hpurpose
    refine ⟨(h.arrivals.append harrived hqueued).rest hacts.ticket hacts.latest, ?_⟩
    intro request n kind path hturn
    have hwaits := (hacts.waits _ _ hturn).1
    cases hwaits
  · cases hdoing with
    | @begun call hcall =>
      rcases begin_change_cases s.intake hpurpose with ⟨kind, path, hlive, harrival, hbegin⟩ |
        ⟨hnone, result, hbegin⟩
      · rw [noted, arrivalEvents, harrival, hbegin]
        exact arrivals_receive h.arrivals hlive kind path
      · rw [noted, arrivalEvents, hnone, hbegin]
        refine ⟨(List.append_nil s.trace).symm ▸ h.arrivals, ?_⟩
        intro request m k p hturn
        cases hturn
    | batch ticket => cases hpurpose
    | @found id g hf n kind path hwaiting result =>
      have harrived := h.looking g (List.mem_of_find?_eq_some hf) n kind path hwaiting
      obtain ⟨answer, hdone⟩ := lookedUp_done s.intake n kind path result
      rw [noted_found h hf hwaiting]
      refine ⟨arrivals_lookedUp h.arrivals harrived result, ?_⟩
      intro request m k p hturn
      rw [hdone] at hturn
      cases hturn
    | stored hf hwaiting result =>
      rw [purposeOf, Flight.purpose?, hwaiting] at hpurpose
      cases hpurpose
    | removed hf hwaiting result =>
      rw [purposeOf, Flight.purpose?, hwaiting] at hpurpose
      cases hpurpose
    | joined hf hwaiting =>
      rw [purposeOf, Flight.purpose?, hwaiting] at hpurpose
      cases hpurpose

/-- The number of the call whose work is done is below the next one. -/
theorem idOf_lt (h : s.Kept) (hdoing : s.Doing a f work) : s.idOf f < (s.ready a f).nextId := by
  cases f with
  | none => exact Nat.lt_succ_self _
  | some g =>
    obtain ⟨id, hg⟩ := hdoing.found?
    exact h.known g (List.mem_of_find?_eq_some hg)

theorem nextId_le_ready (s : Session) (a : Action) (f : Option Flight) :
    s.nextId ≤ (s.ready a f).nextId := by
  cases f with
  | none => exact Nat.le_succ _
  | some g => exact Nat.le_refl _

/-- The call whose work is done has a number of its own. -/
theorem idOf_ne (h : s.Kept) (hdoing : s.Doing a f work) :
    (∀ g ∈ s.others f, g.id ≠ s.idOf f) ∧ ∀ x ∈ s.answers, x.1 ≠ s.idOf f := by
  cases f with
  | none => exact ⟨fun g hg => (h.known g hg).ne, fun x hx => (h.answered x hx).1.ne⟩
  | some f =>
    obtain ⟨id, hf⟩ := hdoing.found?
    obtain ⟨l₁, l₂, hsplit, hrest⟩ := eraseP_of_find? hf
    refine ⟨?_, fun x hx => ((h.answered x hx).2 f (List.mem_of_find?_eq_some hf)).symm⟩
    have hids := h.ids
    rw [hsplit, List.map_append, List.map_cons, List.nodup_middle, ← List.map_append] at hids
    intro g hg hsame
    change g ∈ s.flights.eraseP _ at hg
    rw [hrest] at hg
    have hmem : g.id ∈ (l₁ ++ l₂).map Flight.id := List.mem_map_of_mem hg
    rw [hsame] at hmem
    exact (List.nodup_cons.mp hids).1 hmem

/-- What is done under the ticket of a batch is done on behalf of that batch. -/
theorem purposeOf_ticket (h : s.Kept) (hdoing : s.Doing a f work) {ticket : Nat}
    (hticket : ticketOf a f = some ticket) : purposeOf a f = some (.timed ticket) := by
  cases f with
  | some f =>
    obtain ⟨id, hf⟩ := hdoing.found?
    exact (h.purposes f (List.mem_of_find?_eq_some hf) ticket hticket).1
  | none =>
    cases a with
    | startBatch other =>
      cases hticket
      rfl
    | begin call => cases hticket
    | quiet ticket => cases hticket
    | gather ticket => cases hticket
    | resume id reply => cases hticket

/-- What is done on behalf of a batch is done under its ticket. -/
theorem ticketOf_timed (h : s.Kept) (hdoing : s.Doing a f work) {ticket : Nat}
    (hpurpose : purposeOf a f = some (.timed ticket)) : ticketOf a f = some ticket := by
  cases f with
  | some f =>
    obtain ⟨id, hf⟩ := hdoing.found?
    exact h.timed f (List.mem_of_find?_eq_some hf) ticket hpurpose
  | none =>
    cases hdoing with
    | begun hcall =>
      rename_i call
      cases call with
      | batch other => exact absurd rfl (hcall other)
      | change kind path => cases hpurpose
      | directoryChange kind path => cases hpurpose
      | flush => cases hpurpose
      | destroy => cases hpurpose
    | batch other =>
      cases hpurpose
      rfl

/-- A call that waits goes on waiting while the work of another one is done. -/
theorem mem_others (hdoing : s.Doing a f work) {g : Flight} (hg : g ∈ s.flights) (hne : g ∉ f) :
    g ∈ s.others f := by
  cases f with
  | none => exact hg
  | some f =>
    obtain ⟨id, hf⟩ := hdoing.found?
    obtain ⟨l₁, l₂, hsplit, hrest⟩ := eraseP_of_find? hf
    change g ∈ s.flights.eraseP _
    rw [hrest]
    rw [hsplit] at hg
    rcases List.mem_append.mp hg with hg | hg
    · exact List.mem_append_left _ hg
    · refine List.mem_append_right _ ((List.mem_cons.mp hg).resolve_left fun hsame => hne ?_)
      rw [hsame]
      rfl

/-- After the work of a step the calls are those that waited besides, and the one that did the work
if it waits again. -/
theorem mem_flights_works {g : Flight}
    (hg : g ∈ ((s.ready a f).advance (s.idOf f) (ticketOf a f) work).flights) :
    g ∈ s.others f ∨
      g.id = s.idOf f ∧ g.ticket = ticketOf a f ∧ work.turn = .ask g.request g.waiting := by
  rw [advance_flights, ready_flights] at hg
  exact (List.mem_append.mp hg).imp_right mem_flightsAfter

theorem ids_works (h : s.Kept) (hdoing : s.Doing a f work) :
    (((s.ready a f).advance (s.idOf f) (ticketOf a f) work).flights.map Flight.id).Nodup := by
  rw [advance_flights, ready_flights, List.map_append]
  refine List.Nodup.append (h.ids.sublist ((s.others_sublist f).map _)) ?_ ?_
  · unfold flightsAfter
    split <;> simp
  · intro i hi hi'
    obtain ⟨g, hg, rfl⟩ := List.mem_map.mp hi
    obtain ⟨g', hg', hsame⟩ := List.mem_map.mp hi'
    rw [(mem_flightsAfter hg').1] at hsame
    exact (idOf_ne h hdoing).1 g hg hsame.symm

/-- The call that waits again for a batch that was due waits for it under the ticket of that
batch. -/
theorem purposes_works (h : s.Kept) (hdoing : s.Doing a f work) {g : Flight}
    (hg : g ∈ ((s.ready a f).advance (s.idOf f) (ticketOf a f) work).flights) {ticket : Nat}
    (hticket : g.ticket = some ticket) :
    g.purpose? = some (.timed ticket) ∧ g.stage?.isSome = true := by
  rcases mem_flights_works hg with hg | ⟨-, hsame, hturn⟩
  · exact h.purposes g (s.others_subset f hg) ticket hticket
  · have hpurpose := purposeOf_ticket h hdoing (hsame.symm.trans hticket)
    rcases hdoing.acts_or_admits h with ⟨purpose, hsome, hacts⟩ | ⟨hnone, -⟩
    · rw [hpurpose] at hsome
      cases hsome
      exact ⟨(hacts.waits _ _ hturn).1, hacts.staged _ _ ticket hturn rfl⟩
    · rw [hpurpose] at hnone
      cases hnone

theorem timed_works (h : s.Kept) (hdoing : s.Doing a f work) {g : Flight}
    (hg : g ∈ ((s.ready a f).advance (s.idOf f) (ticketOf a f) work).flights) {ticket : Nat}
    (hpurpose : g.purpose? = some (.timed ticket)) : g.ticket = some ticket := by
  rcases mem_flights_works hg with hg | ⟨-, hsame, hturn⟩
  · exact h.timed g (s.others_subset f hg) ticket hpurpose
  · rw [hsame]
    rcases hdoing.acts_or_admits h with ⟨purpose, hsome, hacts⟩ | ⟨-, hadmits⟩
    · rw [Flight.purpose?, (hacts.waits _ _ hturn).1] at hpurpose
      cases hpurpose
      exact ticketOf_timed h hdoing hsome
    · rw [Flight.purpose?, hadmits.waits _ _ hturn] at hpurpose
      cases hpurpose

/-- A call that has an answer does not wait any more. -/
theorem answered_works (h : s.Kept) (hdoing : s.Doing a f work) {x : Nat × Except Failure Unit}
    (hx : x ∈ ((s.ready a f).advance (s.idOf f) (ticketOf a f) work).answers) {g : Flight}
    (hg : g ∈ ((s.ready a f).advance (s.idOf f) (ticketOf a f) work).flights) : g.id ≠ x.1 := by
  obtain ⟨hothers, hanswered⟩ := idOf_ne h hdoing
  rw [advance_answers, ready_answers] at hx
  rcases List.mem_append.mp hx with hx | hx
  · rcases mem_flights_works hg with hg | ⟨hsame, -, -⟩
    · exact (h.answered x hx).2 g (s.others_subset f hg)
    · exact hsame ▸ (hanswered x hx).symm
  · obtain ⟨hsame, hdone⟩ := mem_answersAfter hx
    rcases mem_flights_works hg with hg | ⟨-, -, hturn⟩
    · exact hsame ▸ hothers g hg
    · cases hturn.symm.trans hdone

theorem kept_works (h : s.Kept) (hdoes : s.Does a f work)
    (hasks : ∀ g ∈ ((s.ready a f).advance (s.idOf f) (ticketOf a f) work).flights,
      g.waiting.Asks g.request) :
    ((s.ready a f).advance (s.idOf f) (ticketOf a f) work).Kept := by
  have htrace := advance_trace (s.ready a f) (s.idOf f) (ticketOf a f) work
  rw [ready_trace, List.append_assoc] at htrace
  have hdoing := hdoes.doing
  obtain ⟨harrivals, hlooking⟩ := arrivals_noted h hdoing
  have hid := idOf_lt h hdoing
  have hle := nextId_le_ready s a f
  refine ⟨(moved_works h hdoes ..).busy, ?arrivals, ?looking, hasks,
    fun g hg _ => purposes_works h hdoing hg, fun g hg _ => timed_works h hdoing hg,
    ids_works h hdoing, ?known, ?answered⟩
  case arrivals =>
    rw [htrace, advance_intake]
    refine harrivals.append ?_ ?_
    · intro n k p he
      obtain he | ⟨calls, he⟩ := begun_or_handed he <;> cases he
    · intro q he
      obtain he | ⟨calls, he⟩ := begun_or_handed he <;> cases he
  case looking =>
    intro g hg n kind path hwaiting
    have hgrown {i : Nat} {e : Event} {T : List Event} (hi : T[i]? = some e) (T' : List Event) :
        (T ++ T')[i]? = some e := by
      rw [List.getElem?_append_left (lt_of_getElem? hi), hi]
    rw [htrace]
    -- The arrival that a call looks up stays where it is in the trace.
    rcases mem_flights_works hg with hg | ⟨-, -, hturn⟩
    · obtain ⟨i, hi⟩ := h.looking g (s.others_subset f hg) n kind path hwaiting
      exact ⟨i, hgrown (hgrown hi _) _⟩
    · rw [hwaiting] at hturn
      obtain ⟨i, hi⟩ := hlooking _ _ _ _ hturn
      exact ⟨i, hgrown hi _⟩
  case known =>
    intro g hg
    rw [advance_nextId]
    rcases mem_flights_works hg with hg | ⟨hsame, -, -⟩
    · exact (h.known g (s.others_subset f hg)).trans_le hle
    · exact hsame ▸ hid
  case answered =>
    intro x hx
    refine ⟨?_, fun g hg => answered_works h hdoing hx hg⟩
    rw [advance_nextId]
    rw [advance_answers, ready_answers] at hx
    rcases List.mem_append.mp hx with hx | hx
    · exact (h.answered x hx).1.trans_le hle
    · exact (mem_answersAfter hx).1 ▸ hid

theorem gathered_rest (ix : Intake) : ix.gathered.1.queue = ix.queue ∧
    ix.gathered.1.missed = ix.missed ∧ ix.gathered.1.options = ix.options ∧
    ix.gathered.1.processing = ix.processing ∧ ix.gathered.1.latest = ix.latest ∧
    ix.gathered.1.destroyed = ix.destroyed ∧ ix.ticket ≤ ix.gathered.1.ticket := by
  unfold Intake.gathered
  dsimp only
  split
  · exact ⟨rfl, rfl, rfl, rfl, rfl, rfl, Nat.le_refl _⟩
  · exact ⟨rfl, rfl, rfl, rfl, rfl, rfl, Nat.le_succ _⟩

/-- A step that only winds timers. -/
structure Winding (s t : Session) : Prop where
  queue : t.intake.queue = s.intake.queue
  missed : t.intake.missed = s.intake.missed
  options : t.intake.options = s.intake.options
  processing : t.intake.processing = s.intake.processing
  latest : t.intake.latest = s.intake.latest
  destroyed : t.intake.destroyed = s.intake.destroyed
  ticket : s.intake.ticket ≤ t.intake.ticket
  flights : t.flights = s.flights
  nextId : t.nextId = s.nextId
  trace : t.trace = s.trace
  answers : t.answers = s.answers
  due : s.due ⊆ t.due

/-- Effects start batches and take back none. -/
theorem change_due (r : Session) (intake : Intake) (effects : List Effect) :
    r.due ⊆ (r.change intake effects).due := by
  have hfold (effects : List Effect) (r : Session) : r.due ⊆ (effects.foldl perform r).due := by
    induction effects generalizing r with
    | nil => exact List.Subset.refl _
    | cons e effects ih =>
      have hone : r.due ⊆ (r.perform e).due := by
        cases e with
        | startBatch ticket => exact List.subset_append_left ..
        | log level text => exact List.Subset.refl _
        | armQuiet ticket delay => exact List.Subset.refl _
        | armGather ticket delay => exact List.Subset.refl _
        | disarm ticket => exact List.Subset.refl _
        | detach => exact List.Subset.refl _
      exact List.Subset.trans hone (ih (r.perform e))
  exact hfold effects { r with intake }

theorem winding_change {intake : Intake} (h : Winding s { r with intake })
    (effects : List Effect) : Winding s (r.change intake effects) := by
  have hintake := r.change_intake intake effects
  refine ⟨?_, ?_, ?_, ?_, ?_, ?_, ?_, (change_flights ..).trans h.flights,
    (change_nextId ..).trans h.nextId, (change_trace ..).trans h.trace,
    (change_answers ..).trans h.answers, List.Subset.trans h.due (change_due ..)⟩ <;> rw [hintake]
  · exact h.queue
  · exact h.missed
  · exact h.options
  · exact h.processing
  · exact h.latest
  · exact h.destroyed
  · exact h.ticket

/-- A step winds timers only, or does the work of a call. -/
theorem winding_or_works (s : Session) (a : Action) : Winding s (s.step a) ∨
    ∃ f work, s.Does a f work ∧
      s.step a = (s.ready a f).advance (s.idOf f) (ticketOf a f) work := by
  obtain ⟨t, ht⟩ : ∃ t, t = s.step a := ⟨_, rfl⟩
  have hstepped := s.step_stepped a
  rw [← ht] at hstepped ⊢
  cases hstepped with
  | same =>
    exact .inl ⟨rfl, rfl, rfl, rfl, rfl, rfl, Nat.le_refl _, rfl, rfl, rfl, rfl,
      List.Subset.refl _⟩
  | quiet ha hmem =>
    refine .inl (winding_change (s := s) ?_ _)
    exact ⟨rfl, rfl, rfl, rfl, rfl, rfl, Nat.le_succ _, rfl, rfl, rfl, rfl, List.Subset.refl _⟩
  | gather ha hmem =>
    obtain ⟨hqueue, hmissed, hoptions, hprocessing, hlatest, hdestroyed, hticket⟩ :=
      gathered_rest s.intake
    refine .inl (winding_change (s := s) ?_ _)
    exact ⟨hqueue, hmissed, hoptions, hprocessing, hlatest, hdestroyed, hticket, rfl, rfl, rfl, rfl,
      List.Subset.refl _⟩
  | works hdoes => exact .inr ⟨_, _, hdoes, rfl⟩

theorem winding_timer (s : Session) {a : Action} {ticket : Nat}
    (ha : a = .quiet ticket ∨ a = .gather ticket) : Winding s (s.step a) := by
  rcases s.winding_or_works a with hwinds | ⟨f, work, ⟨hdoing, -, -⟩, -⟩
  · exact hwinds
  · obtain rfl | rfl := ha <;> cases hdoing

theorem Winding.stages (h : Winding s t) : t.stages = s.stages := by
  rw [Session.stages, Session.stages, h.flights]

theorem step_moved (h : s.Kept) (a : Action) : Moved s a (s.step a) := by
  rcases s.winding_or_works a with hwinds | ⟨f, work, hdoes, hstep⟩
  · obtain ⟨stage, hstages, hbusy⟩ := h.busy
    refine ⟨⟨_, .nothing [] ?_ rfl hwinds.missed hwinds.stages ?_, .inl hwinds.queue⟩,
      hwinds.options, stage, ?_, ?_⟩
    · exact fun _ he => absurd he List.not_mem_nil
    · exact hwinds.trace.trans (List.append_nil _).symm
    · rw [hwinds.stages, hstages]
    · rw [hwinds.processing, hbusy]
  · rw [hstep]
    exact moved_works h hdoes ..

/-- An intake ends only when a call is over that ends it. -/
theorem step_destroyed (h : s.Kept) (a : Action) :
    (s.step a).intake.destroyed = s.intake.destroyed ∨
      s.Closing a ∧ Closed (s.step a).intake := by
  rcases s.winding_or_works a with hwinds | ⟨f, work, hdoes, hstep⟩
  · exact .inl hwinds.destroyed
  · rw [hstep, advance_intake]
    rcases hdoes.doing.acts_or_admits h with ⟨purpose, hpurpose, hacts⟩ | ⟨-, hadmits⟩
    · cases hturn : work.turn with
      | ask request waiting => exact .inl (hacts.waits request waiting hturn).2.1
      | done result =>
        have hended := (hacts.ends result hturn).2
        cases purpose with
        | timed ticket => exact .inl hended.1
        | flush => exact .inl hended
        | destroy => exact .inr ⟨⟨f, work, result, hdoes, hpurpose, hturn⟩, hended⟩
    · exact .inl hadmits.destroyed

theorem kept_step (h : s.Kept) (a : Action) : (s.step a).Kept := by
  have hasks := asks_step h.asks a
  rcases s.winding_or_works a with hwinds | ⟨f, work, hdoes, hstep⟩
  · refine ⟨(step_moved h a).busy, ?_, ?_, hasks, ?_, ?_, ?_, ?_, ?_⟩
    · rw [hwinds.trace]
      exact h.arrivals.rest hwinds.ticket (by rw [hwinds.latest]; exact fun _ _ hn => hn)
    · rw [hwinds.flights, hwinds.trace]
      exact h.looking
    · rw [hwinds.flights]
      exact h.purposes
    · rw [hwinds.flights]
      exact h.timed
    · rw [hwinds.flights]
      exact h.ids
    · rw [hwinds.flights, hwinds.nextId]
      exact h.known
    · rw [hwinds.flights, hwinds.nextId, hwinds.answers]
      exact h.answered
  · rw [hstep] at hasks ⊢
    exact kept_works h hdoes hasks

theorem kept_fresh (root : String) (options : Options) : (fresh root options).Kept := by
  refine ⟨⟨none, rfl, rfl⟩, ⟨?_, ?_, ?_, ?_⟩, ?_, ?_, ?_, ?_, List.nodup_nil, ?_, ?_⟩
  · exact fun i _ _ _ hi => absurd hi (by simp [fresh])
  · exact fun i _ _ _ _ _ _ _ _ hi => absurd hi (by simp [fresh])
  · exact fun j _ hj => absurd hj (by simp [fresh])
  · exact fun _ _ hn => nomatch hn
  · exact fun _ hf => nomatch hf
  · exact fun _ hf => nomatch hf
  · exact fun _ hf => nomatch hf
  · exact fun _ hf => nomatch hf
  · exact fun _ hf => nomatch hf
  · exact fun _ hx => nomatch hx

theorem kept_run (h : s.Kept) (actions : List Action) : (s.run actions).Kept := by
  induction actions generalizing s with
  | nil => exact h
  | cons a actions ih => exact ih (kept_step h a)

end Session

end LiveIndex.Intake
