import LiveIndex.Intake.Calls
import LiveIndex.Proofs.Loop.Schedule

/-! An intake under any schedule. Calls begin at any time, timers ring in any order, and the disk
and the index answer late, early, or with a failure. A trace is kept of what happens to the
changes, from the first event to the last. -/

namespace LiveIndex.Intake

/-- A call that waits. The work of a started batch runs under the ticket of that batch. -/
structure Flight where
  id : Nat
  ticket : Option Nat
  request : Request
  waiting : Waiting

/-- What happens to changes: each arrives under a number, is queued with what was found out about
it, and is handed to the index in a call of some batch, which is applied or fails. -/
inductive Event
  | arrived (number : Nat) (kind : WatchKind) (path : String)
  | queued (c : Change)
  | begun
  | handed (changes : List Change)
  | applied (changes : List Change)
  | failed (changes : List Change)
  deriving DecidableEq

def Event.returned (changes : List Change) : Except Failure Unit → Event
  | .ok () => .applied changes
  | .error _ => .failed changes

/-- The change that a call brings in, unless it is turned away. -/
def arrival? (ix : Intake) : Call → Option (WatchKind × String)
  | .change kind path =>
    if ix.destroyed then none else (WatchKind.ofWord? kind).map fun k => (k, path)
  | .directoryChange kind path =>
    if ix.destroyed then none
    else ((WatchKind.ofWord? kind).filter WatchKind.ofDirectory).map fun k => (k, path)
  | _ => none

/-- What an arrival does to the trace. A removal is queued where it arrives. -/
def arrivalEvents (ix : Intake) (call : Call) : List Event :=
  match ix.arrival? call with
  | some (kind, path) =>
    .arrived ix.ticket kind path ::
      if kind.isRemoval then [.queued ⟨kind, path, none, 0, ix.ticket⟩] else []
  | none => []

/-- What the end of a lookup does to the trace: its change is queued if it is the latest of its
path. -/
def foundEvents (ix : Intake) (ticket : Nat) (kind : WatchKind) (path : String) :
    Except Failure Entry → List Event
  | .ok e =>
    if !ix.destroyed && ix.latest.get? path = some ticket then
      [.queued ⟨kind, path, some e, 0, ticket⟩]
    else []
  | .error _ => []

/-- A call that is going to wait hands over the changes that it waits for. -/
def Waiting.events : Waiting → List Event
  | .storing stores _ => [.handed stores]
  | .removing c _ => [.handed [c]]
  | _ => []

/-- An intake with everything that is under way: `due` are the batches that a timer has started and
that have not begun. -/
structure Session where
  intake : Intake
  flights : List Flight
  quietTimers : List Nat
  gatherTimers : List Nat
  due : List Nat
  nextId : Nat
  trace : List Event
  answers : List (Nat × Except Failure Unit)

inductive Reply
  | found (result : Except Failure Entry)
  | served (result : Except Failure Unit)
  | joined

/-- What can happen next. What cannot happen at the time leaves everything as it is. -/
inductive Action
  | begin (call : Call)
  | quiet (ticket : Nat)
  | gather (ticket : Nat)
  | startBatch (ticket : Nat)
  | resume (id : Nat) (reply : Reply)

namespace Session

def fresh (root : String) (options : Options) : Session where
  intake := .create root options
  flights := []
  quietTimers := []
  gatherTimers := []
  due := []
  nextId := 0
  trace := []
  answers := []

def perform (s : Session) : Effect → Session
  | .log _ _ | .detach => s
  | .armQuiet ticket _ => { s with quietTimers := s.quietTimers ++ [ticket] }
  | .armGather ticket _ => { s with gatherTimers := s.gatherTimers ++ [ticket] }
  | .disarm ticket =>
    { s with
      quietTimers := s.quietTimers.erase ticket
      gatherTimers := s.gatherTimers.erase ticket }
  | .startBatch ticket => { s with due := s.due ++ [ticket] }

/-- Takes over a state of the intake and performs what it has done elsewhere. -/
def change (s : Session) (intake : Intake) (effects : List Effect) : Session :=
  effects.foldl perform { s with intake }

def note (s : Session) (events : List Event) : Session :=
  { s with trace := s.trace ++ events }

def beginning (before after : Intake) : List Event :=
  if after.processing && !before.processing then [.begun] else []

/-- Does a stretch of a call's work. -/
def advance (s : Session) (id : Nat) (ticket : Option Nat) (work : Work) : Session :=
  let t := (s.note (beginning s.intake work.state)).change work.state work.effects
  match work.turn with
  | .done result => { t with answers := t.answers ++ [(id, result)] }
  | .ask request waiting =>
    note { t with flights := t.flights ++ [⟨id, ticket, request, waiting⟩] } waiting.events

def launch (s : Session) (ticket : Option Nat) (work : Work) : Session :=
  { s with nextId := s.nextId + 1 }.advance s.nextId ticket work

def isRunning (s : Session) (ticket : Nat) : Bool :=
  ticket ∈ s.due || s.flights.any (·.ticket = some ticket)

def without (s : Session) (f : Flight) : Session :=
  { s with flights := s.flights.eraseP (·.id = f.id) }

/-- Goes on with a call that waits, if what has come is what it waits for. -/
def wake (s : Session) (f : Flight) (reply : Reply) : Session :=
  match f.request, f.waiting, reply with
  | .lookUp _, .lookingUp ticket kind path, .found result =>
    ((s.without f).note (s.intake.foundEvents ticket kind path result)).advance f.id f.ticket
      (s.intake.lookedUp ticket kind path result)
  | .store _, .storing stores round, .served result =>
    ((s.without f).note [.returned stores result]).advance f.id f.ticket
      (s.intake.stored stores round result)
  | .remove _, .removing c round, .served result =>
    ((s.without f).note [.returned [c] result]).advance f.id f.ticket
      (s.intake.removed c round result)
  | .batch ticket, .joining purpose, .joined =>
    -- The work of a batch has no failure that could be passed on here.
    if s.isRunning ticket then s
    else (s.without f).advance f.id f.ticket (s.intake.flushNow purpose)
  | _, _, _ => s

def step (s : Session) : Action → Session
  | .begin (.batch _) => s
  | .begin call => (s.note (s.intake.arrivalEvents call)).launch none (s.intake.begin call)
  | .quiet ticket =>
    if ticket ∈ s.quietTimers then
      { s with quietTimers := s.quietTimers.erase ticket }.change s.intake.quiet.1 s.intake.quiet.2
    else s
  | .gather ticket =>
    if ticket ∈ s.gatherTimers then
      { s with gatherTimers := s.gatherTimers.erase ticket }.change s.intake.gathered.1
        s.intake.gathered.2
    else s
  | .startBatch ticket =>
    if ticket ∈ s.due then
      { s with due := s.due.erase ticket }.launch (some ticket) (s.intake.begin (.batch ticket))
    else s
  | .resume id reply =>
    match s.flights.find? (·.id = id) with
    | some f => s.wake f reply
    | none => s

/-- Lets things happen one after another. -/
def run (s : Session) (actions : List Action) : Session :=
  actions.foldl step s

variable (s : Session)

@[simp] theorem change_intake (intake : Intake) (effects : List Effect) :
    (s.change intake effects).intake = intake :=
  foldl_field Session.intake (fun _ e => by cases e <;> rfl) effects _

@[simp] theorem change_flights (intake : Intake) (effects : List Effect) :
    (s.change intake effects).flights = s.flights :=
  foldl_field flights (fun _ e => by cases e <;> rfl) effects _

@[simp] theorem change_trace (intake : Intake) (effects : List Effect) :
    (s.change intake effects).trace = s.trace :=
  foldl_field trace (fun _ e => by cases e <;> rfl) effects _

end Session

end LiveIndex.Intake
