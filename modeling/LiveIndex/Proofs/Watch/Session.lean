import LiveIndex.Feed
import LiveIndex.Proofs.Loop.Schedule
import LiveIndex.Proofs.Watch.Record

/-! A watch under any schedule. Changes and errors are reported at any time, timers ring when they
are due or later, and walks, the backend and jobs are over late, early, or with a failure. The
backend is a feed. -/

namespace LiveIndex.Watch

/-- A timer of a pending event, and when it rings. -/
structure Timer where
  ticket : Nat
  path : String
  due : Int
  deriving DecidableEq

/-- A call that waits. The expansion of a directory runs under the ticket of its job. -/
structure Flight where
  id : Nat
  ticket : Option Nat
  request : Request
  waiting : Waiting

def queueItem (w : Watch) (clock : Int) (e : Event) : Item :=
  .queued ⟨clock, w.ticket, e⟩

def changeItems (w : Watch) (d : Disk) (now clock : Int) (c : Sighting) : List Item :=
  match w.interpret d now c.kind c.path with
  | (w, .ok (some e)) => [w.queueItem clock e]
  | _ => []

def eachItems (w : Watch) (d : Disk) (now clock : Int) : List Sighting → List Item
  | [] => []
  | c :: rest =>
    w.changeItems d now clock c ++ (w.takeChange d now c).1.eachItems d now clock rest

/-- What a report of changes does to the record. -/
def reportItems (w : Watch) (d : Disk) (now clock : Int) (cs : List Sighting) : List Item :=
  if w.running then w.eachItems d now clock cs else []

/-- What the end of the first walk does to the record. -/
def foundItems (w : Watch) (now clock : Int) : List Entry → List Item
  | [] => []
  | e :: rest =>
    match w.foundEvent now e with
    | .ok event => w.queueItem clock event :: (w.queue event).1.foundItems now clock rest
    | .error _ => w.foundItems now clock rest

def newItems (w : Watch) (now clock : Int) : List Entry → List Item
  | [] => []
  | e :: rest =>
    let w := if e.isDirectory then { w with knownDirs := addKnown w.knownDirs e.path } else w
    -- What is pending is not older than the walk.
    if w.pending.contains e.path then w.newItems now clock rest
    else
      match w.foundEvent now e with
      | .ok event => w.queueItem clock event :: (w.queue event).1.newItems now clock rest
      | .error _ => w.newItems now clock rest

/-- What the end of the walk of a new directory does to the record. -/
def expandedItems (w : Watch) (now clock : Int) : Except Failure (List Entry) → List Item
  | .ok found => if w.running then w.newItems now clock found else []
  | .error _ => []

/-- What the answer of the backend to a start does to the record. -/
def startedItems (w : Watch) (now clock : Int) (id : Nat) (initial : List Entry) :
    Except Failure Unit → List Item
  | .ok () =>
    .connected id :: (if w.ignoreInitial then [] else w.foundItems now clock initial) ++ [.ready id]
  | .error _ => [.failing]

def unwatchItems (w : Watch) (path : String) : List Item :=
  if path ∈ w.extraPaths then [.unwatched path] else []

/-- What the ring of a timer does to the record. -/
def ringItems (w : Watch) (clock : Int) (t : Timer) : List Item :=
  match w.pending.get? t.path with
  | some (e, ticket) =>
    [if w.running then .emitted t.due clock ticket e else .dropped t.due clock ticket]
  | none => []

/-- A watch with its backend and everything that is under way: `due` are the jobs that have been
started, `ended` those that are over and still to be noted. What handlers are told is kept with the
length of the record at that time. -/
structure Session where
  watch : Watch
  feed : Feed
  clock : Int
  timers : List Timer
  flights : List Flight
  due : List (Nat × Job)
  ended : List (Nat × Except Failure Unit)
  nextId : Nat
  trace : List Item
  told : List (Nat × Payload)

inductive Reply
  | walked (now : Int) (result : Except Failure (List Entry))
  | served (now : Int) (result : Except Failure Unit)
  | joined

/-- What can happen next. What cannot happen at the time leaves everything as it is. -/
inductive Action
  | wait (ms : Nat)
  | on (t : Topic) (h : Handler)
  | off (t : Topic) (h : Handler)
  | addPath (path : String)
  | unwatchPath (path : String)
  | report (now : Int) (d : Disk) (changes : List Sighting)
  | fail (f : Failure)
  | start
  | stop
  | expand (ticket : Nat)
  | endJob (ticket : Nat) (result : Except Failure Unit)
  | noteOver (ticket : Nat)
  | ring (ticket : Nat)
  | endRun (ticket : Nat)
  | resume (id : Nat) (reply : Reply)

namespace Session

def fresh (root : String) (filter : Filter) (debounce : Int) (ignoreInitial : Bool)
    (options : Feed.Options) : Session where
  watch := .create root filter debounce ignoreInitial
  feed := .create options
  clock := 0
  timers := []
  flights := []
  due := []
  ended := []
  nextId := 0
  trace := []
  told := []

def hear (s : Session) (p : Payload) : Session :=
  { s with told := s.told ++ [(s.trace.length, p)] }

def perform (s : Session) : Effect → Session
  | .log _ _ => s
  | .note _ p => s.hear p
  | .arm ticket path delay => { s with timers := s.timers ++ [⟨ticket, path, s.clock + delay⟩] }
  | .disarm ticket => { s with timers := s.timers.filter (·.ticket ≠ ticket) }
  | .start ticket (.handle h p) => { s.hear p with due := s.due ++ [(ticket, .handle h p)] }
  | .start ticket (.expand path) => { s with due := s.due ++ [(ticket, .expand path)] }
  | .watch path => { s with feed := (s.feed.addPath path).1 }
  | .unwatch path => { s with feed := (s.feed.unwatchPath path).1 }

/-- Takes over a state of the watch and performs what it has done elsewhere. -/
def change (s : Session) (watch : Watch) (effects : List Effect) : Session :=
  effects.foldl perform { s with watch }

def note (s : Session) (items : List Item) : Session :=
  { s with trace := s.trace ++ items }

/-- A call begins to wait. A backend that is asked to stop does so at once, and then waits for its
runs. -/
def park (s : Session) (f : Flight) : Session :=
  { s with
    flights := s.flights ++ [f]
    feed :=
      match f.request with
      | .stopBackend => s.feed.beginStop.state
      | _ => s.feed }

def finish (s : Session) (id : Nat) (ticket : Option Nat) (result : Except Failure (Option Bool)) :
    Session :=
  { s.note [.returned id] with
    ended := s.ended ++ ticket.toList.map fun t => (t, result.map fun _ => ()) }

/-- Does a stretch of a call's work. -/
def advance (s : Session) (id : Nat) (ticket : Option Nat) (items : List Item) (work : Work) :
    Session :=
  let t := (s.note items).change work.state work.effects
  match work.turn with
  | .done result => t.finish id ticket result
  | .ask request waiting => t.park ⟨id, ticket, request, waiting⟩

def launch (s : Session) (ticket : Option Nat) (items : List Item) (work : Work) : Session :=
  { s with nextId := s.nextId + 1 }.advance s.nextId ticket items work

def isRunning (s : Session) (ticket : Nat) : Bool :=
  s.due.any (·.1 = ticket) || s.flights.any (·.ticket = some ticket)

def without (s : Session) (f : Flight) : Session :=
  { s with flights := s.flights.eraseP (·.id = f.id) }

/-- The backend starts to work, unless it fails to. -/
def connect (s : Session) (paths : List String) : Except Failure Unit → Session
  | .ok () => { s with feed := (s.feed.start (.watch 0) paths).1 }
  | .error _ => s

/-- Goes on with a call that waits, if what has come is what it waits for. -/
def wake (s : Session) (f : Flight) (reply : Reply) : Session :=
  match f.request, f.waiting, reply with
  | .walk _, .learning, .walked _ result =>
    (s.without f).advance f.id f.ticket [] (s.watch.learned result)
  | .walk _, .expanding, .walked now result =>
    (s.without f).advance f.id f.ticket (s.watch.expandedItems now s.clock result)
      (s.watch.expanded now result)
  | .startBackend paths, .starting initial, .served now result =>
    ((s.without f).connect paths result).advance f.id f.ticket
      (s.watch.startedItems now s.clock f.id initial result) (s.watch.started now initial result)
  | .stopBackend, .stopping wasRunning, .served _ (.ok ()) =>
    (s.without f).advance f.id f.ticket [] (s.watch.stopped wasRunning)
  | .stopBackend, .stopping _, .served _ (.error failure) =>
    (s.without f).advance f.id f.ticket [] (.failed s.watch [] failure)
  | .jobs tickets, .settling, .joined =>
    -- All of them have to be over.
    if tickets.any s.isRunning then s
    else (s.without f).advance f.id f.ticket [] (s.watch.settle [])
  | _, _, _ => s

def step (s : Session) : Action → Session
  | .wait ms => { s with clock := s.clock + ms }
  | .on t h => { s with watch := s.watch.on t h }
  | .off t h => { s with watch := s.watch.off t h }
  | .addPath path => s.change (s.watch.addPath path).1 (s.watch.addPath path).2
  | .unwatchPath path =>
    (s.note (s.watch.unwatchItems path)).change (s.watch.unwatchPath path).1
      (s.watch.unwatchPath path).2
  | .report now d cs =>
    (s.note (s.watch.reportItems d now s.clock cs)).change (s.watch.takeChanges d now cs).1
      (s.watch.takeChanges d now cs).2
  | .fail f => (s.note [.failing]).change (s.watch.fatal f).1 (s.watch.fatal f).2
  | .start =>
    -- A watch that runs is not started again: the call returns at once.
    s.launch none (if s.watch.running then [] else [.starting s.nextId]) (s.watch.begin .start)
  | .stop => s.launch none [.stopping s.nextId] (s.watch.begin .stop)
  | .expand ticket =>
    match s.due.find? (·.1 = ticket) with
    | some (_, .expand path) =>
      { s with due := s.due.eraseP (·.1 = ticket) }.launch (some ticket) []
        (s.watch.begin (.expand path))
    | _ => s
  | .endJob ticket result =>
    match s.due.find? (·.1 = ticket) with
    | some (_, .handle _ _) =>
      { s with due := s.due.eraseP (·.1 = ticket), ended := s.ended ++ [(ticket, result)] }
    | _ => s
  | .noteOver ticket =>
    match s.ended.find? (·.1 = ticket) with
    | some (_, result) =>
      { s with ended := s.ended.eraseP (·.1 = ticket) }.change (s.watch.jobOver ticket result).1
        (s.watch.jobOver ticket result).2
    | none => s
  | .ring ticket =>
    match s.timers.find? (·.ticket = ticket) with
    | some t =>
      -- A timer may ring late, but not early.
      if t.due ≤ s.clock then
        ({ s with timers := s.timers.filter (·.ticket ≠ t.ticket) }.note
            (s.watch.ringItems s.clock t)).change (s.watch.fire t.path).1 (s.watch.fire t.path).2
      else s
    | none => s
  | .endRun ticket => { s with feed := { s.feed with ended := ticket :: s.feed.ended } }
  | .resume id reply =>
    match s.flights.find? (·.id = id) with
    | some f => s.wake f reply
    | none => s

/-- Lets things happen one after another. -/
def run (s : Session) (actions : List Action) : Session :=
  actions.foldl step s

end Session

/-- What an effect does to the timers. -/
def Effect.onTimers (clock : Int) (timers : List Timer) : Effect → List Timer
  | .arm ticket path delay => timers ++ [⟨ticket, path, clock + delay⟩]
  | .disarm ticket => timers.filter (·.ticket ≠ ticket)
  | _ => timers

def timersAfter (clock : Int) (timers : List Timer) (effects : List Effect) : List Timer :=
  effects.foldl (fun timers e => e.onTimers clock timers) timers

/-- What an effect tells a handler. -/
def Effect.payload? : Effect → Option Payload
  | .note _ p | .start _ (.handle _ p) => some p
  | _ => none

namespace Session

variable (s : Session)

@[simp] theorem perform_watch (e : Effect) : (s.perform e).watch = s.watch := by
  cases e with
  | start _ job => cases job <;> rfl
  | _ => rfl

@[simp] theorem perform_clock (e : Effect) : (s.perform e).clock = s.clock := by
  cases e with
  | start _ job => cases job <;> rfl
  | _ => rfl

@[simp] theorem perform_flights (e : Effect) : (s.perform e).flights = s.flights := by
  cases e with
  | start _ job => cases job <;> rfl
  | _ => rfl

@[simp] theorem perform_nextId (e : Effect) : (s.perform e).nextId = s.nextId := by
  cases e with
  | start _ job => cases job <;> rfl
  | _ => rfl

@[simp] theorem perform_trace (e : Effect) : (s.perform e).trace = s.trace := by
  cases e with
  | start _ job => cases job <;> rfl
  | _ => rfl

theorem perform_timers (e : Effect) : (s.perform e).timers = e.onTimers s.clock s.timers := by
  cases e with
  | start _ job => cases job <;> rfl
  | _ => rfl

theorem perform_told (e : Effect) : (s.perform e).told =
    s.told ++ e.payload?.toList.map fun p => (s.trace.length, p) := by
  cases e with
  | start _ job => cases job <;> simp [perform, hear, Effect.payload?]
  | _ => simp [perform, hear, Effect.payload?]

variable (watch : Watch) (effects : List Effect)

@[simp] theorem change_watch : (s.change watch effects).watch = watch :=
  foldl_field Session.watch perform_watch effects _

@[simp] theorem change_clock : (s.change watch effects).clock = s.clock :=
  foldl_field clock perform_clock effects _

@[simp] theorem change_flights : (s.change watch effects).flights = s.flights :=
  foldl_field flights perform_flights effects _

@[simp] theorem change_nextId : (s.change watch effects).nextId = s.nextId :=
  foldl_field nextId perform_nextId effects _

@[simp] theorem change_trace : (s.change watch effects).trace = s.trace :=
  foldl_field trace perform_trace effects _

@[simp] theorem change_timers :
    (s.change watch effects).timers = timersAfter s.clock s.timers effects := by
  rw [change]
  generalize hs : ({ s with watch } : Session) = t
  have hclock : t.clock = s.clock := by rw [← hs]
  have htimers : t.timers = s.timers := by rw [← hs]
  rw [← hclock, ← htimers]
  clear hs hclock htimers
  induction effects generalizing t with
  | nil => rfl
  | cons e effects ih =>
    rw [List.foldl_cons, ih, perform_clock, perform_timers]
    rfl

@[simp] theorem change_told : (s.change watch effects).told =
    s.told ++ (effects.filterMap Effect.payload?).map fun p => (s.trace.length, p) := by
  rw [change]
  generalize hs : ({ s with watch } : Session) = t
  have htrace : t.trace = s.trace := by rw [← hs]
  have htold : t.told = s.told := by rw [← hs]
  rw [← htrace, ← htold]
  clear hs htrace htold
  induction effects generalizing t with
  | nil => simp
  | cons e effects ih =>
    rw [List.foldl_cons, ih, perform_trace, perform_told, List.append_assoc, ← List.map_append]
    cases hp : e.payload? <;> simp [hp]

variable (paths : List String) (result : Except Failure Unit)

@[simp] theorem connect_clock : (s.connect paths result).clock = s.clock := by
  cases result <;> rfl

@[simp] theorem connect_watch : (s.connect paths result).watch = s.watch := by
  cases result <;> rfl

@[simp] theorem connect_flights : (s.connect paths result).flights = s.flights := by
  cases result <;> rfl

@[simp] theorem connect_timers : (s.connect paths result).timers = s.timers := by
  cases result <;> rfl

@[simp] theorem connect_trace : (s.connect paths result).trace = s.trace := by
  cases result <;> rfl

@[simp] theorem connect_told : (s.connect paths result).told = s.told := by
  cases result <;> rfl

@[simp] theorem connect_nextId : (s.connect paths result).nextId = s.nextId := by
  cases result <;> rfl

end Session

end LiveIndex.Watch
