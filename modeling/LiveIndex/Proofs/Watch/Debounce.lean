import LiveIndex.Proofs.Watch.Steps

/-! Events and their timers in every run of a watch. What a step does is in the record, and the
record is lawful, so that what is told of an event can be read off what came before. -/

namespace LiveIndex.Watch

namespace Session

variable {s : Session} {debounce : Int} {items : List Item} {f : Flight}

/-- Handlers are told of an event only when it has just been emitted. -/
def Honest (s : Session) : Prop :=
  ∀ n e, (n, .event e) ∈ s.told → ∃ a due time ticket b,
    s.trace = a ++ .emitted due time ticket e :: b ∧ n = a.length + 1

/-- The watch and its timers are as the record says, and so is what handlers are told. -/
structure Sound (debounce : Int) (s : Session) : Prop where
  tracks : Tracks debounce s.watch s.timers s.trace
  honest : s.Honest

theorem Honest.note (h : s.Honest) (items : List Item) : (s.note items).Honest := by
  intro n e hmem
  obtain ⟨a, due, time, ticket, b, htrace, hn⟩ := h n e hmem
  refine ⟨a, due, time, ticket, b ++ items, ?_, hn⟩
  rw [Session.note, htrace, List.append_assoc, List.cons_append]

theorem Honest.change (h : s.Honest) {watch : Watch} {effects : List Effect}
    (htold : ∀ e, .event e ∈ payloads effects →
      ∃ a due time ticket, s.trace = a ++ [.emitted due time ticket e]) :
    (s.change watch effects).Honest := by
  intro n e hmem
  rw [change_told] at hmem
  rw [change_trace]
  rcases List.mem_append.mp hmem with hmem | hmem
  · exact h n e hmem
  · obtain ⟨p, hp, hpair⟩ := List.mem_map.mp hmem
    cases hpair
    obtain ⟨a, due, time, ticket, htrace⟩ := htold e hp
    refine ⟨a, due, time, ticket, [], htrace, ?_⟩
    rw [htrace, List.length_append]
    rfl

theorem Sound.change (h : s.Sound debounce) {r : Watch × List Effect}
    (hkeeps : Keeps debounce s.clock s.timers s.trace items r) :
    ((s.note items).change r.1 r.2).Sound debounce := by
  constructor
  · rw [change_watch, change_timers, change_trace]
    exact hkeeps.tracks
  · exact (h.honest.note items).change fun e he => absurd rfl (hkeeps.told _ he e)

theorem Sound.aside (h : s.Sound debounce) {r : Watch × List Effect} (hr : Aside Plain s.watch r) :
    (s.change r.1 r.2).Sound debounce := by
  have hchange := h.change (h.tracks.keeps_aside hr)
  rwa [note, List.append_nil] at hchange

/-- A stretch of work, and what becomes of its call. -/
theorem Sound.advance (h : s.Sound debounce) {id : Nat} {ticket : Option Nat} {work : Work}
    (hkeeps : Keeps debounce s.clock s.timers s.trace items (work.state, work.effects)) :
    (s.advance id ticket items work).Sound debounce := by
  have hchange := h.change hkeeps
  unfold Session.advance
  dsimp only
  split
  · exact ⟨hchange.tracks.flag (i := .returned id) trivial rfl fun _ => rfl,
      hchange.honest.note [.returned id]⟩
  · exact ⟨hchange.tracks, hchange.honest⟩

theorem Sound.wake (h : s.Sound debounce) (f : Flight) (reply : Reply) :
    (s.wake f reply).Sound debounce := by
  have hwithout : (s.without f).Sound debounce := ⟨h.tracks, h.honest⟩
  unfold Session.wake
  split
  · exact hwithout.advance (h.tracks.learned _)
  · exact hwithout.advance (h.tracks.expanded _)
  · next paths initial now result _ _ =>
    have hconnect : ((s.without f).connect paths result).Sound debounce := by
      constructor
      · rw [connect_watch, connect_timers, connect_trace]
        exact h.tracks
      · rw [Honest, connect_told, connect_trace]
        exact h.honest
    refine hconnect.advance ?_
    rw [connect_clock, connect_timers, connect_trace]
    exact h.tracks.started f.id initial result
  · exact hwithout.advance (h.tracks.keeps_aside (aside_stoppedWork _ _))
  · exact hwithout.advance (h.tracks.keeps_aside (.refl _ _))
  · split
    · exact h
    · exact hwithout.advance (h.tracks.keeps_aside (aside_settle _))
  · exact h

theorem Sound.launch (h : s.Sound debounce) {ticket : Option Nat} {work : Work}
    (hkeeps : Keeps debounce s.clock s.timers s.trace items (work.state, work.effects)) :
    (s.launch ticket items work).Sound debounce :=
  Sound.advance (s := { s with nextId := s.nextId + 1 }) ⟨h.tracks, h.honest⟩ hkeeps

/-- The timer of a pending event rings. -/
theorem Sound.ring (h : s.Sound debounce) {t : Timer} (ht : t ∈ s.timers) (hdue : t.due ≤ s.clock) :
    (({ s with timers := s.timers.filter (·.ticket ≠ t.ticket) }.note
        (s.watch.ringItems s.clock t)).change (s.watch.fire t.path).1
          (s.watch.fire t.path).2).Sound debounce := by
  obtain ⟨q, -, -, hget⟩ := h.tracks.pending_of_timer ht
  constructor
  · rw [change_watch, change_timers, change_trace]
    exact h.tracks.ring ht hdue
  · have htimers : Honest { s with timers := s.timers.filter (·.ticket ≠ t.ticket) } := h.honest
    refine (htimers.note _).change fun e he => ?_
    rw [payloads_fire hget] at he
    split at he
    · next hrunning =>
      cases List.eq_of_mem_replicate he
      refine ⟨s.trace, t.due, s.clock, q.ticket, ?_⟩
      rw [note, ringItems, hget]
      dsimp only
      rw [if_pos hrunning]
    · cases he

theorem Sound.step (h : s.Sound debounce) (a : Action) : (s.step a).Sound debounce := by
  cases a with
  | wait ms => exact ⟨h.tracks, h.honest⟩
  | on t handler => exact h.aside (aside_handlers _ _)
  | off t handler => exact h.aside (aside_handlers _ _)
  | addPath path => exact h.aside (aside_addPath _ path)
  | unwatchPath path => exact h.change (h.tracks.keeps_unwatch path)
  | report now d cs => exact h.change (h.tracks.report cs)
  | fail f => exact h.change (h.tracks.fatal f)
  | start => exact h.launch (h.tracks.beginStart _)
  | stop => exact h.launch (h.tracks.beginStop _)
  | expand ticket =>
    rw [Session.step]
    split
    · have hdue : Sound debounce { s with due := s.due.eraseP (·.1 = ticket) } :=
        ⟨h.tracks, h.honest⟩
      exact hdue.launch (h.tracks.keeps_aside (.refl Plain s.watch))
    · exact h
  | endJob ticket result =>
    rw [Session.step]
    split
    · exact ⟨h.tracks, h.honest⟩
    · exact h
  | noteOver ticket =>
    rw [Session.step]
    split
    · have hended : Sound debounce { s with ended := s.ended.eraseP (·.1 = ticket) } :=
        ⟨h.tracks, h.honest⟩
      exact hended.aside (aside_jobOver s.watch ticket _)
    · exact h
  | ring ticket =>
    rw [Session.step]
    split
    · next t ht =>
      split
      · next hdue => exact h.ring (List.mem_of_find?_eq_some ht) hdue
      · exact h
    · exact h
  | endRun ticket => exact ⟨h.tracks, h.honest⟩
  | resume id reply =>
    rw [Session.step]
    split
    · exact h.wake _ reply
    · exact h

theorem Sound.run (h : s.Sound debounce) (actions : List Action) :
    (s.run actions).Sound debounce := by
  induction actions generalizing s with
  | nil => exact h
  | cons a rest ih => exact ih (h.step a)

theorem sound_fresh (root : String) (filter : Filter) (debounce : Int) (ignoreInitial : Bool)
    (options : Feed.Options) :
    (fresh root filter debounce ignoreInitial options).Sound debounce :=
  ⟨⟨rfl, rfl, rfl, rfl, fun _ ht => absurd ht List.not_mem_nil, .nil, rfl⟩,
    fun _ _ hmem => absurd hmem List.not_mem_nil⟩

/-- How events and timers stand after a run, and what has become of the events. -/
structure Debounced (debounce : Int) (s : Session) : Prop where
  /-- Each pending path has one timer, and each timer belongs to a pending path. -/
  armed : s.timers.map (fun t => (t.path, t.ticket)) =
    s.watch.pending.items.map fun p => (p.1, p.2.2)
  single : (s.timers.map Timer.path).Nodup
  /-- A timer is that of the latest event of its path. -/
  latest : ∀ t ∈ s.timers, ∃ a q b, s.trace = a ++ .queued q :: b ∧ (∀ i ∈ b, i.ends q = false) ∧
    t = q.timer debounce ∧ s.watch.pending.get? t.path = some (q.event, t.ticket)
  /-- A timer that rings has its event emitted, if the watch runs: each handler of its kind and of
  all events is told. -/
  rings : ∀ t ∈ s.timers, t.due ≤ s.clock → ∃ e, s.watch.pending.get? t.path = some (e, t.ticket) ∧
    (s.step (.ring t.ticket)).trace = s.trace ++
      [if s.watch.running then .emitted t.due s.clock t.ticket e
        else .dropped t.due s.clock t.ticket] ∧
    (s.step (.ring t.ticket)).told = s.told ++
      if s.watch.running then List.replicate
        ((s.watch.handlersOf (.kind e.kind)).length + (s.watch.handlersOf .event).length)
        (s.trace.length + 1, .event e)
      else []
  running : s.watch.running = runs s.trace
  /-- What is emitted was queued a fixed time before its timer was due, nothing has ended it since,
  and it has not been emitted before. -/
  emitted : ∀ a due time ticket e b, s.trace = a ++ .emitted due time ticket e :: b →
    runs a = true ∧ due ≤ time ∧ (∀ due' time' e', .emitted due' time' ticket e' ∉ a) ∧
      ∃ c d, a = c ++ .queued ⟨due - debounce, ticket, e⟩ :: d ∧
        ∀ i ∈ d, i.ends ⟨due - debounce, ticket, e⟩ = false
  dropped : ∀ a due time ticket b, s.trace = a ++ .dropped due time ticket :: b → runs a = false
  /-- What was queued is pending, or has been ended. -/
  fate : ∀ a q b, s.trace = a ++ .queued q :: b →
    (s.watch.pending.get? q.event.path = some (q.event, q.ticket) ∧ ∀ i ∈ b, i.ends q = false) ∨
      ∃ i ∈ b, i.ends q = true
  /-- After a stop nothing is emitted without a start that was called later. -/
  stopped : ∀ a id b due time ticket e c,
    s.trace = a ++ .stopping id :: (b ++ .emitted due time ticket e :: c) → ∃ id', .starting id' ∈ b
  honest : s.Honest

theorem step_ring {t : Timer} (h : s.Sound debounce) (ht : t ∈ s.timers) (hdue : t.due ≤ s.clock) :
    ∃ e, s.watch.pending.get? t.path = some (e, t.ticket) ∧
      (s.step (.ring t.ticket)).trace = s.trace ++
        [if s.watch.running then .emitted t.due s.clock t.ticket e
          else .dropped t.due s.clock t.ticket] ∧
      (s.step (.ring t.ticket)).told = s.told ++
        if s.watch.running then List.replicate
          ((s.watch.handlersOf (.kind e.kind)).length + (s.watch.handlersOf .event).length)
          (s.trace.length + 1, .event e)
        else [] := by
  obtain ⟨q, hq, rfl, hget⟩ := h.tracks.pending_of_timer ht
  -- Tickets are distinct, so it is this timer that rings.
  have hfind : s.timers.find? (·.ticket = q.ticket) = some (q.timer debounce) := by
    cases hfind : s.timers.find? (·.ticket = q.ticket) with
    | none =>
      have hnot := List.find?_eq_none.mp hfind _ ht
      exact absurd (decide_eq_true rfl) hnot
    | some t' =>
      obtain ⟨q', hq', rfl, -⟩ := h.tracks.pending_of_timer (List.mem_of_find?_eq_some hfind)
      have hticket : (q'.timer debounce).ticket = q.ticket := by
        simpa using List.find?_some hfind
      rw [h.tracks.lawful.standing_inj hq' hq hticket]
  have hstep : s.step (.ring q.ticket) =
      (note { s with timers := s.timers.filter (·.ticket ≠ q.ticket) }
          (s.watch.ringItems s.clock (q.timer debounce))).change
        (s.watch.fire (q.timer debounce).path).1 (s.watch.fire (q.timer debounce).path).2 := by
    rw [step, hfind]
    exact if_pos hdue
  refine ⟨q.event, hget, ?_, ?_⟩
  · change (s.step (.ring q.ticket)).trace = _
    rw [hstep, change_trace, note, ringItems, hget]
    rfl
  · change (s.step (.ring q.ticket)).told = _
    have hlength : (s.trace ++ s.watch.ringItems s.clock (q.timer debounce)).length =
        s.trace.length + 1 := by
      rw [ringItems, hget, List.length_append]
      rfl
    rw [hstep, change_told]
    change s.told ++ (payloads _).map (fun p =>
      ((s.trace ++ s.watch.ringItems s.clock (q.timer debounce)).length, p)) = _
    rw [hlength, payloads_fire hget]
    split
    · rw [List.map_replicate]
    · rfl

theorem Sound.debounced (h : s.Sound debounce) : s.Debounced debounce where
  armed := by
    rw [h.tracks.timers, h.tracks.pending, List.map_map, List.map_map]
    rfl
  single := by
    have hkeys : s.timers.map Timer.path = s.watch.pending.items.map Prod.fst := by
      rw [h.tracks.timers, h.tracks.pending, List.map_map, List.map_map]
      rfl
    rw [hkeys]
    exact s.watch.pending.nodup
  latest t ht := by
    obtain ⟨q, hq, rfl, hget⟩ := h.tracks.pending_of_timer ht
    obtain ⟨a, b, htrace, hb⟩ := mem_standing_iff.mp hq
    exact ⟨a, q, b, htrace, hb, rfl, hget⟩
  rings t ht hdue := step_ring h ht hdue
  running := h.tracks.running
  emitted a due time ticket e b htrace := by
    have hlawful := h.tracks.lawful
    rw [htrace] at hlawful
    obtain ⟨hrunning, hstanding, hdue⟩ := hlawful.allowed
    refine ⟨hrunning, hdue, fun due' time' e' => ?_, mem_standing_iff.mp hstanding⟩
    exact (hlawful.before.not_ended hstanding).1 e'
  dropped a due time ticket b htrace := by
    have hlawful := h.tracks.lawful
    rw [htrace] at hlawful
    exact hlawful.allowed.1
  fate a q b htrace := by
    by_cases hends : ∃ i ∈ b, i.ends q = true
    · exact .inr hends
    · have hnone : ∀ i ∈ b, i.ends q = false := fun i hi =>
        Bool.eq_false_iff.mpr fun hi' => hends ⟨i, hi, hi'⟩
      have hq : q ∈ standing s.trace := mem_standing_iff.mpr ⟨a, b, htrace, hnone⟩
      exact .inl ⟨h.tracks.get?_iff.mpr ⟨q, hq, rfl, rfl, rfl⟩, hnone⟩
  stopped a id b due time ticket e c htrace := by
    have hlawful := h.tracks.lawful
    rw [htrace, ← List.cons_append, ← List.append_assoc] at hlawful
    exact starting_of_runs rfl hlawful.allowed.1
  honest := h.honest

/-- Time never passes a timer that is due: such a timer rings, or is taken back, before. -/
def Prompt (s : Session) : List Action → Prop
  | [] => True
  | a :: rest =>
    (∀ ms, a = .wait ms → ∀ t ∈ s.timers, s.clock + ms ≤ t.due) ∧ (s.step a).Prompt rest

/-- No timer is late, and none has ever been. -/
structure Punctual (s : Session) : Prop where
  timers : ∀ t ∈ s.timers, s.clock ≤ t.due
  emitted : ∀ due time ticket e, .emitted due time ticket e ∈ s.trace → time = due

theorem Punctual.step (h : s.Punctual) (hs : s.Sound debounce) (hdebounce : 0 ≤ debounce)
    {a : Action} (ha : ∀ ms, a = .wait ms → ∀ t ∈ s.timers, s.clock + ms ≤ t.due) :
    (s.step a).Punctual := by
  rcases s.step_clock a with hclock | ⟨ms, rfl⟩
  · obtain ⟨new, htrace, hnew⟩ := s.step_trace a
    have htracks := (hs.step a).tracks
    rw [htrace] at htracks
    constructor
    · intro t ht
      obtain ⟨q, hq, rfl, -⟩ := htracks.pending_of_timer ht
      rw [hclock]
      -- The event was pending before, or it has been queued at this time.
      rcases standing_append hq with hq | hq
      · refine h.timers _ ?_
        rw [hs.tracks.timers]
        exact List.mem_map_of_mem hq
      · have htime : q.time = s.clock := hnew _ hq
        change s.clock ≤ q.time + debounce
        omega
    · intro due time ticket e hmem
      rw [htrace] at hmem
      rcases List.mem_append.mp hmem with hmem | hmem
      · exact h.emitted due time ticket e hmem
      · obtain ⟨htime, hdue, t, ht, rfl⟩ := hnew _ hmem
        -- Its timer was due, and not late.
        have hlate : s.clock ≤ t.due := h.timers t ht
        omega
  · exact ⟨fun t ht => ha ms rfl t ht, h.emitted⟩

theorem Punctual.run (h : s.Punctual) (hs : s.Sound debounce) (hdebounce : 0 ≤ debounce)
    {actions : List Action} (hprompt : s.Prompt actions) : (s.run actions).Punctual := by
  induction actions generalizing s with
  | nil => exact h
  | cons a rest ih => exact ih (h.step hs hdebounce hprompt.1) (hs.step a) hprompt.2

/-- In every run of a watch events and timers stand as they should. Where timers are never late, an
event is emitted just when its quiet time is over. -/
theorem debounced_run (root : String) (filter : Filter) (debounce : Int) (ignoreInitial : Bool)
    (options : Feed.Options) (actions : List Action) :
    let start := fresh root filter debounce ignoreInitial options
    (start.run actions).Debounced debounce ∧
      (0 ≤ debounce → start.Prompt actions →
        ∀ due time ticket e, .emitted due time ticket e ∈ (start.run actions).trace →
          time = due) := by
  intro start
  have hsound : start.Sound debounce := sound_fresh root filter debounce ignoreInitial options
  refine ⟨(hsound.run actions).debounced, fun hdebounce hprompt => ?_⟩
  have hpunctual : start.Punctual :=
    ⟨fun _ ht => absurd ht List.not_mem_nil, fun _ _ _ _ hmem => absurd hmem List.not_mem_nil⟩
  exact (hpunctual.run hsound hdebounce hprompt).emitted

def smallWatch (ignoreInitial : Bool) : Session :=
  fresh "/r" ⟨none, []⟩ 300 ignoreInitial .default

/-- A file is removed while a watch runs, and its timer rings in time. -/
def removal : List Action :=
  [ .start, .resume 0 (.walked 0 (.ok [])), .resume 0 (.served 0 (.ok ())),
    .report 5 ⟨.dir [], []⟩ [⟨.deleted, "/r/a.txt"⟩], .wait 300, .ring 0]

theorem debounced_run_removal :
    ((smallWatch true).run removal).Debounced 300 ∧
      .emitted 300 300 0 ⟨.remove, "/r/a.txt", "a.txt", false, ".txt", 5⟩ ∈
        ((smallWatch true).run removal).trace ∧
      ∀ due time ticket e, .emitted due time ticket e ∈ ((smallWatch true).run removal).trace →
        time = due := by
  have hprompt : (smallWatch true).Prompt removal := by
    refine ⟨nofun, nofun, nofun, nofun, fun ms hms => ?_, nofun, trivial⟩
    cases hms
    decide +kernel
  obtain ⟨hdebounced, htime⟩ := debounced_run "/r" ⟨none, []⟩ 300 true .default removal
  exact ⟨hdebounced, by decide +kernel, htime (by decide) hprompt⟩

end Session

end LiveIndex.Watch
