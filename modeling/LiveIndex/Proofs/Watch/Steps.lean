import LiveIndex.Proofs.Watch.Tracking

/-! What a step adds to the record of a watch, and which calls wait after it. -/

namespace LiveIndex.Watch

/-- Whether it is a start that waits. -/
def Waiting.isStart : Waiting → Bool
  | learning | starting _ => true
  | _ => false

namespace Session

variable {s : Session} {items : List Item} {f : Flight} {i : Item} {q : Queued}

/-- What may come into the record while no call goes on. -/
def Passing (s : Session) : Item → Prop
  | .queued q => q.time = s.clock
  | .emitted due time _ _ | .dropped due time _ =>
    time = s.clock ∧ due ≤ s.clock ∧ ∃ t ∈ s.timers, t.due = due
  | .unwatched _ | .failing => True
  | _ => False

/-- Sessions with the same record and the same calls. -/
structure Near (s t : Session) : Prop where
  clock : t.clock = s.clock
  flights : t.flights = s.flights
  nextId : t.nextId = s.nextId
  trace : t.trace = s.trace
  current : t.feed.current = s.feed.current

/-- What a call that goes on asks for next. -/
theorem settle_turn (w : Watch) (effects : List Effect) {request : Request} {waiting : Waiting}
    (h : (w.settle effects).turn = .ask request waiting) : waiting.isStart = false := by
  unfold settle at h
  split at h <;> cases h
  rfl

theorem stopped_turn (w : Watch) (wasRunning : Bool) {request : Request} {waiting : Waiting}
    (h : (w.stopped wasRunning).turn = .ask request waiting) : waiting.isStart = false :=
  settle_turn _ _ h

theorem expanded_turn (w : Watch) (now : Int) (result : Except Failure (List Entry))
    {request : Request} {waiting : Waiting}
    (h : (w.expanded now result).turn = .ask request waiting) : waiting.isStart = false := by
  unfold Watch.expanded at h
  split at h
  · cases h
  · split at h <;> cases h

/-- What a call that waits goes on with. Only a start comes to be connected or waits as a start
again. -/
structure Resumption (s : Session) (f : Flight) (t : Session) (items : List Item) (work : Work) :
    Prop where
  clock : t.clock = s.clock
  flights : t.flights = (s.without f).flights
  nextId : t.nextId = s.nextId
  trace : t.trace = s.trace
  current : t.feed.current = s.feed.current ∨ ∃ rest, items = .connected f.id :: rest
  items : ∀ i ∈ items, s.Passing i ∨
    (i = .connected f.id ∨ i = .ready f.id) ∧ f.waiting.isStart = true
  starts : ∀ request waiting, work.turn = .ask request waiting → waiting.isStart = true →
    f.waiting.isStart = true

/-- What a step comes to. -/
inductive Outcome (s : Session) : Action → Session → Prop
  | waited (ms : Nat) : s.Outcome (.wait ms) { s with clock := s.clock + ms }
  | changed {a : Action} {t : Session} {items : List Item} (watch : Watch) (effects : List Effect)
      (hnear : s.Near t) (hitems : ∀ i ∈ items, s.Passing i) :
      s.Outcome a ((t.note items).change watch effects)
  | started : s.Outcome .start
      (s.launch none (if s.watch.running then [] else [.starting s.nextId]) (s.watch.begin .start))
  | stopped : s.Outcome .stop (s.launch none [.stopping s.nextId] (s.watch.begin .stop))
  | expanding {a : Action} {t : Session} (ticket : Nat) (path : String) (hnear : s.Near t) :
      s.Outcome a (t.launch (some ticket) [] (s.watch.begin (.expand path)))
  | resumed {a : Action} {t : Session} {items : List Item} {work : Work} {id : Nat} {f : Flight}
      (hfind : s.flights.find? (·.id = id) = some f) (h : s.Resumption f t items work) :
      s.Outcome a (t.advance f.id f.ticket items work)

theorem near_refl (s : Session) : s.Near s :=
  ⟨rfl, rfl, rfl, rfl, rfl⟩

/-- A change that adds nothing to the record. -/
theorem Near.outcome {t : Session} (h : s.Near t) (a : Action) (watch : Watch)
    (effects : List Effect) : s.Outcome a (t.change watch effects) := by
  have hchanged : s.Outcome a ((t.note []).change watch effects) :=
    .changed watch effects h fun _ hi => absurd hi List.not_mem_nil
  rwa [note, List.append_nil] at hchanged

/-- Nothing that concerns the record happens. -/
theorem Near.unchanged {t : Session} (h : s.Near t) (a : Action) : s.Outcome a t :=
  h.outcome a t.watch []

theorem queued_report (w : Watch) (d : Disk) (now clock : Int) (cs : List Sighting) :
    ∀ i ∈ w.reportItems d now clock cs, ∃ q, i = .queued q ∧ q.time = clock := by
  unfold reportItems
  split
  · have hcarries : Carries 0 clock w _ _ := carries_takeEach clock w d now cs
    exact hcarries.queued
  · exact fun i hi => absurd hi List.not_mem_nil

theorem queued_expanded (w : Watch) (now clock : Int) (result : Except Failure (List Entry)) :
    ∀ i ∈ w.expandedItems now clock result, ∃ q, i = .queued q ∧ q.time = clock := by
  unfold expandedItems
  split
  · split
    · next found _ =>
      have hcarries : Carries 0 clock w _ _ := carries_new clock w now found
      exact hcarries.queued
    · exact fun i hi => absurd hi List.not_mem_nil
  · exact fun i hi => absurd hi List.not_mem_nil

theorem mem_started {w : Watch} {now clock : Int} {id : Nat} {initial : List Entry}
    {result : Except Failure Unit} (hi : i ∈ w.startedItems now clock id initial result) :
    i = .connected id ∨ (∃ q, i = .queued q ∧ q.time = clock) ∨ i = .ready id ∨ i = .failing := by
  cases result with
  | error failure => exact .inr (.inr (.inr (List.mem_singleton.mp hi)))
  | ok =>
    rcases List.mem_cons.mp hi with hi | hi
    · exact .inl hi
    · rcases List.mem_append.mp hi with hi | hi
      · split at hi
        · cases hi
        · have hcarries : Carries 0 clock w _ _ := carries_found clock w now initial
          exact .inr (.inl (hcarries.queued i hi))
      · exact .inr (.inr (.inl (List.mem_singleton.mp hi)))

/-- What a call goes on with when it gets an answer, if the answer is for it. -/
theorem wake_cases (s : Session) (f : Flight) (reply : Reply) :
    s.wake f reply = s ∨ ∃ t items work, s.Resumption f t items work ∧
      s.wake f reply = t.advance f.id f.ticket items work := by
  have hnone : ∀ i ∈ ([] : List Item), s.Passing i ∨
      (i = .connected f.id ∨ i = .ready f.id) ∧ f.waiting.isStart = true :=
    fun i hi => absurd hi List.not_mem_nil
  unfold wake
  split
  · next hwaiting =>
    refine .inr ⟨s.without f, _, _, ⟨rfl, rfl, rfl, rfl, .inl rfl, hnone, fun _ _ _ _ => ?_⟩, rfl⟩
    rw [hwaiting]
    rfl
  · refine .inr ⟨s.without f, _, _, ⟨rfl, rfl, rfl, rfl, .inl rfl, fun i hi => ?_,
      fun _ _ hturn hs => ?_⟩, rfl⟩
    · obtain ⟨q, rfl, hq⟩ := queued_expanded _ _ _ _ i hi
      exact .inl hq
    · rw [expanded_turn _ _ _ hturn] at hs
      cases hs
  · next paths initial now result _ hwaiting =>
    -- The backend has answered a start.
    have hstart : f.waiting.isStart = true := by rw [hwaiting]; rfl
    refine .inr ⟨(s.without f).connect paths result, _, _, ⟨?_, ?_, ?_, ?_, ?_, fun i hi => ?_,
      fun _ _ _ _ => hstart⟩, rfl⟩
    · exact connect_clock ..
    · exact connect_flights ..
    · exact connect_nextId ..
    · exact connect_trace ..
    · cases result with
      | ok => exact .inr ⟨_, rfl⟩
      | error failure => exact .inl rfl
    · rcases mem_started hi with rfl | ⟨q, rfl, hq⟩ | rfl | rfl
      · exact .inr ⟨.inl rfl, hstart⟩
      · exact .inl hq
      · exact .inr ⟨.inr rfl, hstart⟩
      · exact .inl trivial
  · refine .inr ⟨s.without f, _, _, ⟨rfl, rfl, rfl, rfl, .inl rfl, hnone, fun _ _ hturn hs => ?_⟩,
      rfl⟩
    rw [stopped_turn _ _ hturn] at hs
    cases hs
  · refine .inr ⟨s.without f, _, _, ⟨rfl, rfl, rfl, rfl, .inl rfl, hnone, fun _ _ hturn _ => ?_⟩,
      rfl⟩
    cases hturn
  · split
    · exact .inl rfl
    · refine .inr ⟨s.without f, _, _, ⟨rfl, rfl, rfl, rfl, .inl rfl, hnone,
        fun _ _ hturn hs => ?_⟩, rfl⟩
      rw [settle_turn _ _ hturn] at hs
      cases hs
  · exact .inl rfl

theorem step_cases (s : Session) (a : Action) : s.Outcome a (s.step a) := by
  cases a with
  | wait ms => exact .waited ms
  | on | off | endRun =>
    refine Near.unchanged ?_ _
    exact ⟨rfl, rfl, rfl, rfl, rfl⟩
  | addPath path => exact s.near_refl.outcome _ _ _
  | unwatchPath path =>
    refine .changed _ _ s.near_refl fun i hi => ?_
    unfold unwatchItems at hi
    split at hi
    · rw [List.mem_singleton.mp hi]
      trivial
    · cases hi
  | report now d cs =>
    refine .changed _ _ s.near_refl fun i hi => ?_
    obtain ⟨q, rfl, hq⟩ := queued_report _ _ _ _ _ i hi
    exact hq
  | fail f =>
    refine .changed _ _ s.near_refl fun i hi => ?_
    rw [List.mem_singleton.mp hi]
    trivial
  | start => exact .started
  | stop => exact .stopped
  | expand ticket =>
    rw [step]
    split
    · exact .expanding ticket _ ⟨rfl, rfl, rfl, rfl, rfl⟩
    · exact s.near_refl.unchanged _
  | endJob ticket result =>
    rw [step]
    split
    · refine Near.unchanged ?_ _
      exact ⟨rfl, rfl, rfl, rfl, rfl⟩
    · exact s.near_refl.unchanged _
  | noteOver ticket =>
    rw [step]
    split
    · refine Near.outcome ?_ _ _ _
      exact ⟨rfl, rfl, rfl, rfl, rfl⟩
    · exact s.near_refl.unchanged _
  | ring ticket =>
    rw [step]
    split
    · next t ht =>
      split
      · next hdue =>
        refine .changed _ _ ⟨rfl, rfl, rfl, rfl, rfl⟩ fun i hi => ?_
        have hmem := List.mem_of_find?_eq_some ht
        unfold ringItems at hi
        split at hi
        · rw [List.mem_singleton.mp hi]
          split
          · exact ⟨rfl, hdue, t, hmem, rfl⟩
          · exact ⟨rfl, hdue, t, hmem, rfl⟩
        · cases hi
      · exact s.near_refl.unchanged _
    · exact s.near_refl.unchanged _
  | resume id reply =>
    rw [step]
    split
    · next f hfind =>
      rcases s.wake_cases f reply with hsame | ⟨t, items, work, hresumed, hwake⟩
      · rw [hsame]
        exact s.near_refl.unchanged _
      · rw [hwake]
        exact .resumed hfind hresumed
    · exact s.near_refl.unchanged _

/-- Where a new item of the record comes from. -/
def Source (s : Session) (a : Action) : Item → Prop
  | .starting id => a = .start ∧ id = s.nextId
  | .connected id | .ready id => ∃ f ∈ s.flights, f.id = id ∧ f.waiting.isStart = true
  | .stopping id => a = .stop ∧ id = s.nextId
  | .returned _ => True
  | i => s.Passing i

theorem advance_trace (s : Session) (id : Nat) (ticket : Option Nat) (items : List Item)
    (work : Work) : ∃ later, (s.advance id ticket items work).trace = s.trace ++ (items ++ later) ∧
      ∀ i ∈ later, i = .returned id := by
  unfold advance
  dsimp only
  split
  · refine ⟨[.returned id], ?_, fun i hi => List.mem_singleton.mp hi⟩
    rw [finish, note, change_trace, note, List.append_assoc]
  · refine ⟨[], ?_, fun i hi => absurd hi List.not_mem_nil⟩
    rw [park, change_trace, note, List.append_nil]

theorem Passing.source {a : Action} (h : s.Passing i) : s.Source a i := by
  cases i with
  | starting | connected | ready | stopping | returned => cases h
  | _ => exact h

/-- A step adds to the record, and each new item has its source in the state before. -/
theorem step_trace (s : Session) (a : Action) :
    ∃ new, (s.step a).trace = s.trace ++ new ∧ ∀ i ∈ new, s.Source a i := by
  have hadvance {t : Session} {id : Nat} {ticket : Option Nat} {items : List Item} {work : Work}
      (ht : t.trace = s.trace) (hitems : ∀ i ∈ items, s.Source a i) :
      ∃ new, (t.advance id ticket items work).trace = s.trace ++ new ∧ ∀ i ∈ new, s.Source a i := by
    obtain ⟨later, htrace, hlater⟩ := t.advance_trace id ticket items work
    refine ⟨items ++ later, by rw [htrace, ht], fun i hi => ?_⟩
    rcases List.mem_append.mp hi with hi | hi
    · exact hitems i hi
    · rw [hlater i hi]
      trivial
  generalize hstep : s.step a = t
  cases hstep ▸ s.step_cases a with
  | waited ms => exact ⟨[], (List.append_nil _).symm, fun i hi => absurd hi List.not_mem_nil⟩
  | changed watch effects hnear hitems =>
    exact ⟨_, by rw [change_trace, note, hnear.trace], fun i hi => (hitems i hi).source⟩
  | started =>
    refine hadvance rfl fun i hi => ?_
    split at hi
    · cases hi
    · rw [List.mem_singleton.mp hi]
      exact ⟨rfl, rfl⟩
  | stopped =>
    refine hadvance rfl fun i hi => ?_
    rw [List.mem_singleton.mp hi]
    exact ⟨rfl, rfl⟩
  | expanding ticket path hnear =>
    exact hadvance hnear.trace fun i hi => absurd hi List.not_mem_nil
  | resumed hfind h =>
    have hf := List.mem_of_find?_eq_some hfind
    refine hadvance h.trace fun i hi => ?_
    rcases h.items i hi with hpassing | ⟨rfl | rfl, hstart⟩
    · exact hpassing.source
    · exact ⟨_, hf, rfl, hstart⟩
    · exact ⟨_, hf, rfl, hstart⟩

theorem advance_clock (s : Session) (id : Nat) (ticket : Option Nat) (items : List Item)
    (work : Work) : (s.advance id ticket items work).clock = s.clock := by
  unfold advance
  dsimp only
  split
  · rw [finish, note, change_clock, note]
  · rw [park, change_clock, note]

/-- Time goes on only while everything waits. -/
theorem step_clock (s : Session) (a : Action) :
    (s.step a).clock = s.clock ∨ ∃ ms, a = .wait ms := by
  generalize hstep : s.step a = t
  cases hstep ▸ s.step_cases a with
  | waited ms => exact .inr ⟨ms, rfl⟩
  | changed watch effects hnear => exact .inl ((change_clock ..).trans hnear.clock)
  | started => exact .inl (advance_clock ..)
  | stopped => exact .inl (advance_clock ..)
  | expanding ticket path hnear => exact .inl ((advance_clock ..).trans hnear.clock)
  | resumed hfind h => exact .inl ((advance_clock ..).trans h.clock)

end Session

end LiveIndex.Watch
