import LiveIndex.Proofs.Intake.Ledger
import LiveIndex.Proofs.Intake.Pacing

/-! An intake under a clock. A timer rings when its delay has passed, or later; all else happens at
any time. A diary is kept of when changes were queued and when batches were started and began. A
batch that a timer starts has waited for a quiet time and for the gather timer after it. What is
queued while the gather timer runs does not stop it. -/

namespace LiveIndex.Intake

namespace Session

variable (s : Session)

/-- The work that a call goes on with, if what has come is what it waits for. -/
def workAfter? (f : Flight) (reply : Reply) : Option Work :=
  match f.request, f.waiting, reply with
  | .lookUp _, .lookingUp ticket kind path, .found result =>
    some (s.intake.lookedUp ticket kind path result)
  | .store _, .storing stores round, .served result => some (s.intake.stored stores round result)
  | .remove _, .removing c round, .served result => some (s.intake.removed c round result)
  | .batch ticket, .joining purpose, .joined =>
    if s.isRunning ticket then none else some (s.intake.flushNow purpose)
  | _, _, _ => none

/-- The work of a call that is done in a step. -/
def work? : Action → Option Work
  | .begin (.batch _) => none
  | .begin call => some (s.intake.begin call)
  | .startBatch ticket =>
    if ticket ∈ s.due then some (s.intake.begin (.batch ticket)) else none
  | .resume id reply => (s.flights.find? (·.id = id)).bind (s.workAfter? · reply)
  | .quiet _ | .gather _ => none

/-- What is done elsewhere in a step. -/
def effects (a : Action) : List Effect :=
  match a with
  | .quiet ticket => if ticket ∈ s.quietTimers then s.intake.quiet.2 else []
  | .gather ticket => if ticket ∈ s.gatherTimers then s.intake.gathered.2 else []
  | a => ((s.work? a).map Stretch.effects).getD []

/-- The changes that are queued in a step. -/
def queuedBy (a : Action) : List Change :=
  entered ((s.step a).trace.drop s.trace.length)

end Session

/-- What is written down of an intake under a clock. A gather timer that rings may start a batch. -/
inductive Note
  | queued (c : Change)
  | gathering (ticket : Nat)
  | rang (ticket batch : Nat)
  | begun (batch : Nat)
  deriving DecidableEq

namespace Note

/-- What is written down of an effect of a step. -/
def ofEffect? (a : Action) (e : Effect) : Option Note :=
  match a, e with
  | _, .armGather ticket _ => some (gathering ticket)
  | .gather ticket, .startBatch batch => some (rang ticket batch)
  | _, _ => none

/-- What is written down when a batch begins that was started. -/
def ofBatch (s : Session) : Action → List Note
  | .startBatch batch => if batch ∈ s.due then [begun batch] else []
  | _ => []

/-- The change that a note says was queued. -/
def change? : Note → Option Change
  | queued c => some c
  | gathering _ | rang _ _ | begun _ => none

/-- What is written down of a step. -/
def ofStep (s : Session) (a : Action) : List Note :=
  (s.queuedBy a).map queued ++ (s.effects a).filterMap (ofEffect? a) ++ ofBatch s a

end Note

/-- An intake with everything that is under way, the time in milliseconds, and the times at which
its timers are to ring. -/
structure Clocked where
  session : Session
  now : Int
  deadlines : OrderedMap Nat Int
  diary : List (Int × Note)

/-- Time passes, or something happens. -/
inductive Tick
  | pass (time : Nat)
  | act (a : Action)

namespace Clocked

def fresh (root : String) (options : Options) : Clocked :=
  ⟨.fresh root options, 0, .empty, []⟩

def isOver (c : Clocked) (ticket : Nat) : Bool :=
  match c.deadlines.get? ticket with
  | some deadline => deadline ≤ c.now
  | none => false

/-- Whether it is time for something to happen. Only timers have a time. -/
def allows (c : Clocked) : Action → Bool
  | .quiet ticket | .gather ticket => c.isOver ticket
  | _ => true

/-- Notes when a timer that is wound now is to ring. -/
def wind (now : Int) (deadlines : OrderedMap Nat Int) : Effect → OrderedMap Nat Int
  | .armQuiet ticket delay | .armGather ticket delay => deadlines.insert ticket (now + delay)
  | _ => deadlines

def windAll (c : Clocked) (effects : List Effect) : OrderedMap Nat Int :=
  effects.foldl (wind c.now) c.deadlines

def act (c : Clocked) (a : Action) : Clocked where
  session := c.session.step a
  now := c.now
  deadlines := c.windAll (c.session.effects a)
  diary := c.diary ++ (Note.ofStep c.session a).map (Prod.mk c.now)

def tick (c : Clocked) : Tick → Clocked
  | .pass time => { c with now := c.now + time }
  | .act a => if c.allows a then c.act a else c

def run (c : Clocked) (ticks : List Tick) : Clocked :=
  ticks.foldl tick c

end Clocked

namespace Session

variable {s : Session} {a : Action}

/-- What a step comes to, with what it does elsewhere. -/
inductive Performed (s : Session) (a : Action) : Prop
  | same (hstep : s.step a = s) (heffects : s.effects a = [])
  | quiet {ticket : Nat} (ha : a = .quiet ticket) (ht : ticket ∈ s.quietTimers)
      (heffects : s.effects a = s.intake.quiet.2)
  | gather {ticket : Nat} (ha : a = .gather ticket) (ht : ticket ∈ s.gatherTimers)
      (heffects : s.effects a = s.intake.gathered.2)
  | works {f : Option Flight} {work : Work} (hdoes : s.Does a f work)
      (hstep : s.step a = (s.ready a f).advance (s.idOf f) (ticketOf a f) work)
      (heffects : s.effects a = work.effects)

theorem performed_resume (h : s.Kept) {id : Nat} {f : Flight}
    (hf : s.flights.find? (·.id = id) = some f) (reply : Reply) :
    s.Performed (.resume id reply) := by
  have hasks := h.asks f (List.mem_of_find?_eq_some hf)
  have hstep : s.step (.resume id reply) = s.wake f reply := by
    rw [step, hf]
  have heffects : s.effects (.resume id reply) =
      ((s.workAfter? f reply).map Stretch.effects).getD [] := by
    change ((s.work? (.resume id reply)).map Stretch.effects).getD [] = _
    rw [work?, hf, Option.bind_some]
  have hresumed (t : Nat) (ha : Action.resume id reply = .startBatch t) : t ∈ s.due := by
    cases ha
  obtain ⟨number, ticket, request, waiting⟩ := f
  -- A call asks for what it waits for, so only the answer can be of another kind.
  cases waiting with
  | lookingUp n kind path =>
    obtain ⟨-, rfl⟩ := hasks
    cases reply with
    | found result =>
      refine .works ⟨.found hf rfl result, hresumed, ?_⟩ ?_ heffects
      · rintro g ⟨⟩ t ⟨⟩
      · rw [hstep, ready, noted, hf]
        rfl
    | served result => exact .same hstep heffects
    | joined => exact .same hstep heffects
  | storing stores round =>
    obtain ⟨rfl, -⟩ := hasks
    cases reply with
    | served result =>
      refine .works ⟨.stored hf rfl result, hresumed, ?_⟩ ?_ heffects
      · rintro g ⟨⟩ t ⟨⟩
      · rw [hstep, ready, noted, hf]
        rfl
    | found result => exact .same hstep heffects
    | joined => exact .same hstep heffects
  | removing c round =>
    obtain ⟨rfl, -⟩ := hasks
    cases reply with
    | served result =>
      refine .works ⟨.removed hf rfl result, hresumed, ?_⟩ ?_ heffects
      · rintro g ⟨⟩ t ⟨⟩
      · rw [hstep, ready, noted, hf]
        rfl
    | found result => exact .same hstep heffects
    | joined => exact .same hstep heffects
  | joining purpose =>
    obtain ⟨batch, rfl⟩ := hasks
    cases reply with
    | joined =>
      have hwake : s.wake ⟨number, ticket, .batch batch, .joining purpose⟩ .joined =
          if s.isRunning batch then s
          else (s.without ⟨number, ticket, .batch batch, .joining purpose⟩).advance number ticket
            (s.intake.flushNow purpose) := rfl
      have hafter : s.workAfter? ⟨number, ticket, .batch batch, .joining purpose⟩ .joined =
          if s.isRunning batch then none else some (s.intake.flushNow purpose) := rfl
      rw [hafter] at heffects
      rw [hwake] at hstep
      cases hrunning : s.isRunning batch with
      | true =>
        rw [hrunning, if_pos rfl] at hstep heffects
        exact .same hstep heffects
      | false =>
        rw [hrunning, if_neg Bool.false_ne_true] at hstep heffects
        refine .works ⟨.joined hf rfl, hresumed, ?_⟩ ?_ heffects
        · rintro g ⟨⟩ t ⟨⟩
          exact hrunning
        · have hnoted : s.noted (.resume id .joined) = [] := rfl
          rw [hstep, ready, hnoted, List.append_nil]
          rfl
    | found result => exact .same hstep heffects
    | served result => exact .same hstep heffects

theorem performed (h : s.Kept) (a : Action) : s.Performed a := by
  have hbegin {call : Call} (hcall : ∀ ticket, call ≠ .batch ticket)
      (hstep : s.step (.begin call) =
        (s.note (s.intake.arrivalEvents call)).launch none (s.intake.begin call))
      (heffects : s.effects (.begin call) = (s.intake.begin call).effects) :
      s.Performed (.begin call) :=
    .works ⟨.begun hcall, nofun, by rintro g ⟨⟩⟩ hstep heffects
  cases a with
  | begin call =>
    cases call with
    | batch ticket => exact .same rfl rfl
    | change kind path => exact hbegin (fun _ => nofun) rfl rfl
    | directoryChange kind path => exact hbegin (fun _ => nofun) rfl rfl
    | flush => exact hbegin (fun _ => nofun) rfl rfl
    | destroy => exact hbegin (fun _ => nofun) rfl rfl
  | quiet ticket =>
    by_cases ht : ticket ∈ s.quietTimers
    · exact .quiet rfl ht (if_pos ht)
    · exact .same (if_neg ht) (if_neg ht)
  | gather ticket =>
    by_cases ht : ticket ∈ s.gatherTimers
    · exact .gather rfl ht (if_pos ht)
    · exact .same (if_neg ht) (if_neg ht)
  | startBatch ticket =>
    by_cases ht : ticket ∈ s.due
    · refine .works ⟨.batch ticket, ?_, by rintro g ⟨⟩⟩ ?_ ?_
      · rintro t ⟨⟩
        exact ht
      · have hnoted : s.noted (.startBatch ticket) = [] := rfl
        rw [step, if_pos ht, ready, hnoted, List.append_nil]
        rfl
      · change ((s.work? (.startBatch ticket)).map Stretch.effects).getD [] = _
        rw [work?, if_pos ht]
        rfl
    · refine .same (if_neg ht) ?_
      change ((s.work? (.startBatch ticket)).map Stretch.effects).getD [] = _
      rw [work?, if_neg ht]
      rfl
  | resume id reply =>
    cases hf : s.flights.find? (·.id = id) with
    | none =>
      refine .same ?_ ?_
      · rw [step, hf]
      · change ((s.work? (.resume id reply)).map Stretch.effects).getD [] = _
        rw [work?, hf]
        rfl
    | some f => exact performed_resume h hf reply

theorem ready_due_subset {f : Option Flight} : (s.ready a f).due ⊆ s.due := by
  cases f with
  | some f => exact List.Subset.refl _
  | none =>
    change s.dueFor a ⊆ s.due
    unfold dueFor
    split
    · exact List.erase_subset
    · exact List.Subset.refl _

theorem entered_step (s : Session) (a : Action) :
    entered (s.step a).trace = entered s.trace ++ s.queuedBy a := by
  obtain ⟨new, hnew, -⟩ := s.step_trace a
  rw [queuedBy, hnew, List.drop_left, entered_append]

theorem queuedBy_of_trace (h : (s.step a).trace = s.trace) : s.queuedBy a = [] := by
  rw [queuedBy, h, List.drop_length]
  rfl

theorem noted_of_queuedBy {c : Change} (hc : c ∈ s.queuedBy a) : .queued c ∈ s.noted a := by
  obtain ⟨new, hnew, hall⟩ := s.step_trace a
  rw [queuedBy, hnew, List.drop_left, mem_entered] at hc
  rcases hall _ hc with hnoted | hbegun | ⟨calls, hhanded⟩
  · exact hnoted
  · cases hbegun
  · cases hhanded

end Session

section Diaries

variable {o : Options} {diary more : List (Int × Note)} {time : Int}

/-- Whether a quiet time has passed at some time since the changes of a diary were queued. -/
def QuietBy (o : Options) (diary : List (Int × Note)) (time : Int) : Prop :=
  ∀ moment c, (moment, .queued c) ∈ diary → moment + o.debounce ≤ time

/-- Whether a gather timer was wound when it had been quiet, and its delay has passed. -/
def GatheredBy (o : Options) (diary : List (Int × Note)) (ticket : Nat) (time : Int) : Prop :=
  ∃ early wound late, diary = early ++ (wound, .gathering ticket) :: late ∧
    wound + o.window ≤ time ∧ QuietBy o early wound

/-- Whether a gather timer has started a batch when it was time for it. -/
def StartedIn (o : Options) (diary : List (Int × Note)) (batch : Nat) : Prop :=
  ∃ before rang ticket late, diary = before ++ (rang, .rang ticket batch) :: late ∧
    GatheredBy o before ticket rang

/-- Whether all batches that have begun were started when it was time for it. -/
def Justified (o : Options) (diary : List (Int × Note)) : Prop :=
  ∀ before began batch after, diary = before ++ (began, .begun batch) :: after →
    StartedIn o before batch

theorem QuietBy.append (h : QuietBy o diary time)
    (hmore : ∀ moment c, (moment, .queued c) ∈ more → moment + o.debounce ≤ time) :
    QuietBy o (diary ++ more) time := by
  intro moment c hc
  rcases List.mem_append.mp hc with hc | hc
  · exact h moment c hc
  · exact hmore moment c hc

theorem GatheredBy.append {ticket : Nat} (h : GatheredBy o diary ticket time)
    (more : List (Int × Note)) : GatheredBy o (diary ++ more) ticket time := by
  obtain ⟨early, wound, late, hdiary, hwindow, hquiet⟩ := h
  refine ⟨early, wound, late ++ more, ?_, hwindow, hquiet⟩
  rw [hdiary, List.append_assoc, List.cons_append]

theorem StartedIn.append {batch : Nat} (h : StartedIn o diary batch) (more : List (Int × Note)) :
    StartedIn o (diary ++ more) batch := by
  obtain ⟨before, rang, ticket, late, hdiary, hgathered⟩ := h
  refine ⟨before, rang, ticket, late ++ more, ?_, hgathered⟩
  rw [hdiary, List.append_assoc, List.cons_append]

theorem Justified.append (h : Justified o diary)
    (hmore : ∀ began batch, (began, .begun batch) ∈ more → StartedIn o diary batch) :
    Justified o (diary ++ more) := by
  intro before began batch after hsplit
  rcases List.append_eq_append_iff.mp hsplit with ⟨rest, hbefore, hrest⟩ | ⟨rest, hdiary, hafter⟩
  · -- The batch begins among what is added.
    rw [hbefore]
    refine (hmore began batch ?_).append rest
    rw [hrest]
    exact List.mem_append_right _ List.mem_cons_self
  · cases rest with
    | nil =>
      rw [List.append_nil] at hdiary
      rw [← hdiary]
      refine hmore began batch ?_
      rw [List.nil_append] at hafter
      rw [← hafter]
      exact List.mem_cons_self
    | cons x rest =>
      obtain ⟨rfl, -⟩ := List.cons.inj hafter
      exact h before began batch rest hdiary

end Diaries

namespace Clocked

variable {o : Options} {c : Clocked} {s : Session} {a : Action}

/-- What an intake under a clock keeps to. Its timers ring when it is time for it, the quiet timer
after a quiet time, and the batches that are due were started by the gather timer. -/
structure Timely (o : Options) (c : Clocked) : Prop where
  options : c.session.intake.options = o
  kept : c.session.Kept
  woken : c.session.Woken
  past : ∀ x ∈ c.diary, x.1 ≤ c.now
  sorted : c.diary.Pairwise fun x y => x.1 ≤ y.1
  quiet : ∀ ticket ∈ c.session.intake.quietTimer, ∃ deadline,
    c.deadlines.get? ticket = some deadline ∧ QuietBy o c.diary deadline
  gather : ∀ ticket ∈ c.session.intake.gatherTimer, ∃ deadline,
    c.deadlines.get? ticket = some deadline ∧ GatheredBy o c.diary ticket deadline
  due : ∀ batch ∈ c.session.due, StartedIn o c.diary batch
  begun : Justified o c.diary

section Winding

variable {ix : Intake} {effects : List Effect} {ticket : Nat}

/-- Timers that were known before keep their times. -/
theorem get?_windAll_old (h : ∀ e ∈ effects, e.Quieting ix) (hold : ticket < ix.ticket) :
    (c.windAll effects).get? ticket = c.deadlines.get? ticket := by
  unfold windAll
  generalize c.deadlines = deadlines
  induction effects generalizing deadlines with
  | nil => rfl
  | cons e effects ih =>
    have hone : (wind c.now deadlines e).get? ticket = deadlines.get? ticket := by
      have hquieting := h e List.mem_cons_self
      cases e with
      | armQuiet t delay =>
        have hne : t ≠ ticket := by
          have := hquieting.1
          omega
        rw [wind, OrderedMap.get?_insert, if_neg hne]
      | armGather t delay => cases hquieting
      | startBatch b => cases hquieting
      | log level text => rfl
      | disarm t => rfl
      | detach => rfl
    exact (ih (fun e he => h e (List.mem_cons_of_mem _ he)) _).trans hone

/-- The quiet timer is to ring after the quiet time. -/
theorem get?_windAll_new (h : ∀ e ∈ effects, e.Quieting ix)
    (harmed : .armQuiet ticket ix.options.debounce ∈ effects) :
    (c.windAll effects).get? ticket = some (c.now + ix.options.debounce) := by
  -- Once the timer is wound, other timers leave it alone and winding it again gives the same time.
  have hstays (effects : List Effect) (h : ∀ e ∈ effects, e.Quieting ix)
      (deadlines : OrderedMap Nat Int)
      (hwound : deadlines.get? ticket = some (c.now + ix.options.debounce)) :
      (effects.foldl (wind c.now) deadlines).get? ticket =
        some (c.now + ix.options.debounce) := by
    induction effects generalizing deadlines with
    | nil => exact hwound
    | cons e effects ih =>
      refine ih (fun e he => h e (List.mem_cons_of_mem _ he)) _ ?_
      have hquieting := h e List.mem_cons_self
      cases e with
      | armQuiet t delay =>
        rw [wind, OrderedMap.get?_insert, hquieting.2]
        split
        · rfl
        · exact hwound
      | armGather t delay => cases hquieting
      | startBatch b => cases hquieting
      | log level text => exact hwound
      | disarm t => exact hwound
      | detach => exact hwound
  obtain ⟨earlier, later, rfl⟩ := List.append_of_mem harmed
  unfold windAll
  rw [List.foldl_append, List.foldl_cons]
  refine hstays later (fun e he => h e (List.mem_append_right _ (List.mem_cons_of_mem _ he))) _ ?_
  rw [wind, OrderedMap.get?_insert, if_pos rfl]

end Winding

/-- A gather timer that rings starts a batch, or nothing more happens. -/
theorem gathered_cases (ix : Intake) :
    ix.gathered = ({ ix with gatherTimer := none }, []) ∨
      ix.gathered =
        ({ ix with gatherTimer := none, batch := some ix.ticket, ticket := ix.ticket + 1 },
          [.startBatch ix.ticket]) := by
  unfold Intake.gathered
  dsimp only
  split
  · exact .inl rfl
  · exact .inr rfl

section Notes

variable {batch : Nat}

theorem queuedBy_of_note {q : Change} (h : .queued q ∈ Note.ofStep s a) : q ∈ s.queuedBy a := by
  unfold Note.ofStep at h
  rw [List.mem_append, List.mem_append] at h
  rcases h with (h | h) | h
  · obtain ⟨q', hq, hsame⟩ := List.mem_map.mp h
    cases hsame
    exact hq
  · obtain ⟨e, -, he⟩ := List.mem_filterMap.mp h
    unfold Note.ofEffect? at he
    split at he <;> cases he
  · unfold Note.ofBatch at h
    split at h
    · split at h
      · cases List.mem_singleton.mp h
      · cases h
    · cases h

/-- Only a batch that is due begins. -/
theorem due_of_note (h : .begun batch ∈ Note.ofStep s a) : batch ∈ s.due := by
  unfold Note.ofStep at h
  rw [List.mem_append, List.mem_append] at h
  rcases h with (h | h) | h
  · obtain ⟨q, -, hsame⟩ := List.mem_map.mp h
    cases hsame
  · obtain ⟨e, -, he⟩ := List.mem_filterMap.mp h
    unfold Note.ofEffect? at he
    split at he <;> cases he
  · unfold Note.ofBatch at h
    split at h
    · split at h
      · next hdue =>
        cases List.mem_singleton.mp h
        exact hdue
      · cases h
    · cases h

/-- Of the changes of a step, just those that are queued are written down. -/
theorem change?_ofStep (s : Session) (a : Action) :
    (Note.ofStep s a).filterMap Note.change? = s.queuedBy a := by
  have heffects : ((s.effects a).filterMap (Note.ofEffect? a)).filterMap Note.change? = [] := by
    rw [List.filterMap_filterMap, List.filterMap_eq_nil_iff]
    intro e _
    unfold Note.ofEffect?
    split <;> rfl
  have hbatch : (Note.ofBatch s a).filterMap Note.change? = [] := by
    unfold Note.ofBatch
    split
    · split <;> rfl
    · rfl
  have hqueued : ((s.queuedBy a).map Note.queued).filterMap Note.change? = s.queuedBy a := by
    rw [List.filterMap_map]
    exact List.filterMap_some
  rw [Note.ofStep, List.filterMap_append, List.filterMap_append, heffects, hbatch, hqueued,
    List.append_nil, List.append_nil]

theorem mem_notes {notes : List Note} {now time : Int} {note : Note}
    (h : (time, note) ∈ notes.map (Prod.mk now)) : time = now ∧ note ∈ notes := by
  obtain ⟨n, hn, hsame⟩ := List.mem_map.mp h
  cases hsame
  exact ⟨rfl, hn⟩

theorem ofStep_quiet {ticket : Nat} (ht : ticket ∈ s.quietTimers) :
    Note.ofStep s (.quiet ticket) = [.gathering s.intake.ticket] := by
  have hqueued : s.queuedBy (.quiet ticket) = [] :=
    Session.queuedBy_of_trace (Session.winding_timer s (.inl rfl)).trace
  have heffects : s.effects (.quiet ticket) = s.intake.quiet.2 := if_pos ht
  rw [Note.ofStep, hqueued, heffects, Intake.quiet, List.filterMap_append]
  cases s.intake.gatherTimer <;> rfl

theorem ofStep_gather {ticket : Nat} (ht : ticket ∈ s.gatherTimers) :
    Note.ofStep s (.gather ticket) =
      s.intake.gathered.2.filterMap (Note.ofEffect? (.gather ticket)) := by
  have hqueued : s.queuedBy (.gather ticket) = [] :=
    Session.queuedBy_of_trace (Session.winding_timer s (.inr rfl)).trace
  have heffects : s.effects (.gather ticket) = s.intake.gathered.2 := if_pos ht
  rw [Note.ofStep, hqueued, heffects]
  exact List.append_nil _

end Notes

/-- A quiet time goes on through a step in which no change is queued. -/
theorem quietBy_act {time : Int} (hnone : c.session.queuedBy a = [])
    (h : QuietBy o c.diary time) : QuietBy o (c.act a).diary time := by
  apply h.append
  intro moment q hq
  have hqueued : q ∈ c.session.queuedBy a := queuedBy_of_note (mem_notes hq).2
  rw [hnone] at hqueued
  exact absurd hqueued List.not_mem_nil

/-- A timer that may ring is over. -/
theorem deadline_le {ticket : Nat} (hover : c.isOver ticket = true) :
    ∃ deadline, c.deadlines.get? ticket = some deadline ∧ deadline ≤ c.now := by
  unfold isOver at hover
  split at hover
  · next deadline hdeadline => exact ⟨deadline, hdeadline, of_decide_eq_true hover⟩
  · cases hover

namespace Timely

variable (h : c.Timely o)

include h

theorem past_act (a : Action) : ∀ x ∈ (c.act a).diary, x.1 ≤ c.now := by
  intro x hx
  rcases List.mem_append.mp hx with hx | hx
  · exact h.past x hx
  · exact Int.le_of_eq (mem_notes hx).1

theorem sorted_act (a : Action) : (c.act a).diary.Pairwise fun x y => x.1 ≤ y.1 := by
  refine List.pairwise_append.mpr ⟨h.sorted, ?_, ?_⟩
  · rw [List.pairwise_map]
    exact List.pairwise_of_forall fun _ _ => Int.le_refl _
  · intro x hx y hy
    rw [(mem_notes hy).1]
    exact h.past x hx

theorem begun_act (a : Action) : Justified o (c.act a).diary :=
  h.begun.append fun _ batch hbegun => h.due batch (due_of_note (mem_notes hbegun).2)

/-- What of a state stays right in each step, with what is left to show for each kind of it. -/
theorem act_of (a : Action)
    (hoptions : (c.session.step a).intake.options = c.session.intake.options)
    (hquiet : ∀ ticket ∈ (c.session.step a).intake.quietTimer, ∃ deadline,
      (c.act a).deadlines.get? ticket = some deadline ∧ QuietBy o (c.act a).diary deadline)
    (hgather : ∀ ticket ∈ (c.session.step a).intake.gatherTimer, ∃ deadline,
      (c.act a).deadlines.get? ticket = some deadline ∧
        GatheredBy o (c.act a).diary ticket deadline)
    (hdue : ∀ batch ∈ (c.session.step a).due, StartedIn o (c.act a).diary batch) :
    (c.act a).Timely o :=
  ⟨hoptions.trans h.options, Session.kept_step h.kept a, Session.woken_step h.kept h.woken a,
    h.past_act a, h.sorted_act a, hquiet, hgather, hdue, h.begun_act a⟩

theorem act_same (hstep : c.session.step a = c.session) (heffects : c.session.effects a = []) :
    (c.act a).Timely o := by
  have hqueued : c.session.queuedBy a = [] :=
    Session.queuedBy_of_trace (congrArg Session.trace hstep)
  have hwound : (c.act a).deadlines = c.deadlines := by
    change c.windAll (c.session.effects a) = _
    rw [heffects]
    rfl
  apply h.act_of a <;> rw [hstep]
  · intro ticket ht
    obtain ⟨deadline, hdeadline, hquiet⟩ := h.quiet ticket ht
    exact ⟨deadline, hwound ▸ hdeadline, quietBy_act hqueued hquiet⟩
  · intro ticket ht
    obtain ⟨deadline, hdeadline, hgathered⟩ := h.gather ticket ht
    exact ⟨deadline, hwound ▸ hdeadline, hgathered.append _⟩
  · exact fun batch hbatch => (h.due batch hbatch).append _

theorem act_quiet {ticket : Nat} (ht : ticket ∈ c.session.quietTimers)
    (hover : c.isOver ticket = true) : (c.act (.quiet ticket)).Timely o := by
  obtain ⟨deadline, hdeadline, hover⟩ := deadline_le hover
  have hstep : c.session.step (.quiet ticket) =
      { c.session with quietTimers := c.session.quietTimers.erase ticket }.change
        c.session.intake.quiet.1 c.session.intake.quiet.2 := if_pos ht
  have hintake : (c.session.step (.quiet ticket)).intake = c.session.intake.quiet.1 := by
    rw [hstep, Session.change_intake]
  have hdue : (c.session.step (.quiet ticket)).due = c.session.due := by
    rw [hstep, Intake.quiet]
    cases c.session.intake.gatherTimer <;> rfl
  have hdiary : (c.act (.quiet ticket)).diary =
      c.diary ++ [(c.now, .gathering c.session.intake.ticket)] := by
    change c.diary ++ _ = _
    rw [ofStep_quiet ht]
    rfl
  -- What was queued, was queued before the quiet time that has just passed.
  have hquiet : QuietBy o c.diary c.now := by
    rw [h.woken.wound.quiet, Option.mem_toList] at ht
    obtain ⟨deadline', hdeadline', hquiet⟩ := h.quiet ticket ht
    cases hdeadline.symm.trans hdeadline'
    exact fun moment q hq => Int.le_trans (hquiet moment q hq) hover
  apply h.act_of
  · rw [hintake]
    rfl
  · rw [hintake]
    exact nofun
  · rw [hintake]
    rintro t ⟨⟩
    refine ⟨c.now + o.window, ?_, c.diary, c.now, [], hdiary, Int.le_refl _, hquiet⟩
    change (c.windAll (c.session.effects (.quiet ticket))).get? _ = _
    have heffects : c.session.effects (.quiet ticket) = c.session.intake.quiet.2 := if_pos ht
    rw [heffects, Intake.quiet, windAll, List.foldl_append, List.foldl_cons, List.foldl_nil, wind,
      OrderedMap.get?_insert, if_pos rfl, h.options]
  · rw [hdue, hdiary]
    exact fun batch hbatch => (h.due batch hbatch).append _

theorem act_gather {ticket : Nat} (ht : ticket ∈ c.session.gatherTimers)
    (hover : c.isOver ticket = true) : (c.act (.gather ticket)).Timely o := by
  obtain ⟨deadline, hdeadline, hover⟩ := deadline_le hover
  have hstep : c.session.step (.gather ticket) =
      { c.session with gatherTimers := c.session.gatherTimers.erase ticket }.change
        c.session.intake.gathered.1 c.session.intake.gathered.2 := if_pos ht
  have hintake : (c.session.step (.gather ticket)).intake = c.session.intake.gathered.1 := by
    rw [hstep, Session.change_intake]
  have hgathered : GatheredBy o c.diary ticket c.now := by
    rw [h.woken.wound.gather, Option.mem_toList] at ht
    obtain ⟨deadline', hdeadline', early, wound, late, hdiary, hwindow, hquiet⟩ :=
      h.gather ticket ht
    cases hdeadline.symm.trans hdeadline'
    exact ⟨early, wound, late, hdiary, Int.le_trans hwindow hover, hquiet⟩
  have hnone : c.session.queuedBy (.gather ticket) = [] :=
    Session.queuedBy_of_trace (Session.winding_timer c.session (.inr rfl)).trace
  have heffects : c.session.effects (.gather ticket) = c.session.intake.gathered.2 := if_pos ht
  have hwound : (c.act (.gather ticket)).deadlines = c.deadlines := by
    change c.windAll (c.session.effects (.gather ticket)) = _
    rw [heffects]
    rcases gathered_cases c.session.intake with hcase | hcase <;>
    · rw [hcase]
      rfl
  apply h.act_of
  · rw [hintake]
    rcases gathered_cases c.session.intake with hcase | hcase <;> rw [hcase]
  · intro t htimer
    have hsame : c.session.intake.gathered.1.quietTimer = c.session.intake.quietTimer := by
      rcases gathered_cases c.session.intake with hcase | hcase <;> rw [hcase]
    rw [hintake, hsame] at htimer
    obtain ⟨deadline, hdeadline, hquiet⟩ := h.quiet t htimer
    exact ⟨deadline, hwound ▸ hdeadline, quietBy_act hnone hquiet⟩
  · rw [hintake]
    rcases gathered_cases c.session.intake with hcase | hcase <;>
    · rw [hcase]
      exact nofun
  · intro batch hbatch
    rw [hstep] at hbatch
    rcases gathered_cases c.session.intake with hcase | hcase <;> rw [hcase] at hbatch
    · exact (h.due batch hbatch).append _
    · have hdiary : (c.act (.gather ticket)).diary =
          c.diary ++ [(c.now, .rang ticket c.session.intake.ticket)] := by
        change c.diary ++ _ = _
        rw [ofStep_gather ht, hcase]
        rfl
      rw [hdiary]
      rcases List.mem_append.mp hbatch with hbatch | hbatch
      · exact (h.due batch hbatch).append _
      · rw [List.mem_singleton.mp hbatch]
        exact ⟨c.diary, c.now, ticket, [], rfl, hgathered⟩

/-- Work of a call winds at most the quiet timer, and does so if it queues a change. -/
theorem act_works {f : Option Flight} {work : Work} (hdoes : c.session.Does a f work)
    (hstep : c.session.step a =
      (c.session.ready a f).advance (c.session.idOf f) (Session.ticketOf a f) work)
    (heffects : c.session.effects a = work.effects) : (c.act a).Timely o := by
  have hpaced := hdoes.doing.paced
  have hintake : (c.session.step a).intake = work.state := by
    rw [hstep, Session.advance_intake]
  have hdeadlines : (c.act a).deadlines = c.windAll work.effects := by
    change c.windAll (c.session.effects a) = _
    rw [heffects]
  apply h.act_of
  · rw [hintake, hpaced.options]
  · intro ticket ht
    rw [hintake] at ht
    rw [hdeadlines]
    have hcases : .armQuiet ticket c.session.intake.options.debounce ∈ work.effects ∨
        ticket ∈ c.session.intake.quietTimer ∧ c.session.queuedBy a = [] := by
      by_cases hnone : c.session.queuedBy a = []
      · exact (hpaced.quiet ticket ht).symm.imp_right fun hold => ⟨hold, hnone⟩
      · obtain ⟨q, hq⟩ := List.exists_mem_of_ne_nil _ hnone
        exact .inl (hdoes.doing.restarted h.kept (Session.noted_of_queuedBy hq) ticket ht)
    rcases hcases with harmed | ⟨hold, hnone⟩
    · refine ⟨_, get?_windAll_new hpaced.quieting harmed, ?_⟩
      rw [h.options]
      intro moment q hq
      have hpast : moment ≤ c.now := h.past_act a _ hq
      omega
    · obtain ⟨deadline, hdeadline, hquiet⟩ := h.quiet ticket hold
      refine ⟨deadline, ?_, quietBy_act hnone hquiet⟩
      rw [get?_windAll_old hpaced.quieting (h.woken.wound.quietBelow ticket hold)]
      exact hdeadline
  · intro ticket ht
    rw [hintake] at ht
    have hold := hpaced.gather ticket ht
    obtain ⟨deadline, hdeadline, hgathered⟩ := h.gather ticket hold
    refine ⟨deadline, ?_, hgathered.append _⟩
    rw [hdeadlines, get?_windAll_old hpaced.quieting (h.woken.wound.gatherBelow ticket hold)]
    exact hdeadline
  · intro batch hbatch
    rw [hstep, (Session.wound_works h.kept h.woken.wound hdoes.doing).2] at hbatch
    exact (h.due batch (Session.ready_due_subset hbatch)).append _

theorem tick (t : Tick) : (c.tick t).Timely o := by
  cases t with
  | pass time =>
    refine ⟨h.options, h.kept, h.woken, ?_, h.sorted, h.quiet, h.gather, h.due, h.begun⟩
    intro x hx
    exact Int.le_trans (h.past x hx) (Int.le_add_of_nonneg_right (Int.natCast_nonneg time))
  | act a =>
    simp only [Clocked.tick]
    split
    · next hallows =>
      cases Session.performed h.kept a with
      | same hstep heffects => exact h.act_same hstep heffects
      | quiet ha ht _ =>
        subst ha
        exact h.act_quiet ht hallows
      | gather ha ht _ =>
        subst ha
        exact h.act_gather ht hallows
      | works hdoes hstep heffects => exact h.act_works hdoes hstep heffects
    · exact h

theorem run (ticks : List Tick) : (c.run ticks).Timely o := by
  induction ticks generalizing c with
  | nil => exact h
  | cons t ticks ih => exact ih (h.tick t)

end Timely

/-- The diary misses no change that is queued, and has no other. -/
theorem diary_queued (root : String) (options : Options) (ticks : List Tick) :
    ((fresh root options).run ticks).diary.filterMap (·.2.change?) =
      entered ((fresh root options).run ticks).session.trace := by
  have hrun (c : Clocked) (hc : c.diary.filterMap (·.2.change?) = entered c.session.trace) :
      (c.run ticks).diary.filterMap (·.2.change?) = entered (c.run ticks).session.trace := by
    induction ticks generalizing c with
    | nil => exact hc
    | cons t ticks ih =>
      apply ih
      cases t with
      | pass time => exact hc
      | act a =>
        simp only [tick]
        split
        · change (c.diary ++ _).filterMap _ = entered (c.session.step a).trace
          rw [List.filterMap_append, hc, Session.entered_step, List.filterMap_map]
          exact congrArg _ (change?_ofStep c.session a)
        · exact hc
  exact hrun (fresh root options) rfl

end Clocked

end LiveIndex.Intake
