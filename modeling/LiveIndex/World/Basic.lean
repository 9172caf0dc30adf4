import LiveIndex.Command.Basic
import LiveIndex.Reconciliation.Calls
import LiveIndex.Scenario.Step
import LiveIndex.Snapshot.File

/-! Everything at once: the components, and tasks that wait for each other. A task is a stack of
frames, one for each call that waits; what is ready is done in turn, and time passes only when
nothing is. -/

namespace LiveIndex.World

/-- What a watch shows of itself. -/
structure WatchStatus where
  running : Bool
  ready : Bool
  root : String
  paths : List String
  pending : Nat
  knownDirs : Nat
  isFeed : Bool

/-- What a keeper shows of itself. -/
structure KeeperStatus where
  initialized : Bool
  hasIndex : Bool
  watching : Bool
  watch : Option WatchStatus

/-- What a keeper was made for. -/
structure KeeperView where
  root : String
  indexPath : String
  extensions : List String
  excluded : List String

/-- What calls and steps answer. -/
inductive Answer
  | nothing
  | flag (b : Bool)
  | count (n : Nat)
  | summary (s : Summary)
  | entry (e : Option Entry)
  | entries (es : List Entry)
  | inventory (m : OrderedMap String Entry)
  | snapshot (s : Snapshot)
  | reconciled (r : Reconciliation.Result)
  | launched (watch intake : Nat) (started : Bool)
  | heard (item : Feed.Item)
  | hits (hs : List Matching.Hit)
  | found (f : Index.Found)
  | selected (f : Index.Found)
  | text (t : Option String)
  | path (p : String)
  | names (ns : Option (List String))
  | sightings (cs : List Sighting)
  | stats (s : Stats)
  | watchStatus (s : WatchStatus)
  | keeper (k : KeeperView) (isInstance : Bool)
  | keeperStatus (s : KeeperStatus)
  | tools (a : Tools.Answer)
  | last (l : Command.Last)
  | each (os : List (Except Failure Answer))

/-- How a call ends. -/
abbrev Outcome := Except Failure Answer

/-- The two kinds of locks. -/
inductive LockOf
  | index (id : Nat)
  | keeper (id : Nat)
  deriving DecidableEq, Repr

/-- What a task can be told to do. `offload` is work on another thread, done by the time it is
waited for; `join` and `gather` wait for tasks. -/
inductive Call
  | index (id : Nat) (c : Index.Call)
  | reconcile (index : Nat) (root : String) (filter : Filter) (sink : Sink)
  | intake (id : Nat) (c : Intake.Call)
  | watch (id : Nat) (c : Watch.Call)
  | startBackend (watch : Nat) (paths : List String)
  | stopBackend (watch : Nat)
  | feed (id : Nat) (c : Feed.Call)
  | keeper (id : Nat) (c : Keeper.Call)
  | launch (index : Nat) (settings : Keeper.Launch)
  | tools (c : Tools.Call)
  | command (c : Command.Work)
  | step (s : Scenario.Step)
  | handle (h : Watch.Handler) (p : Watch.Payload)
  | offload (o : Outcome)
  | sleep (ms : Int)
  | lock (l : LockOf)
  | join (task : Nat)
  | gather (tasks : List Nat)
  | listen (feed ticket : Nat)

/-- Where a call waits for another one. -/
inductive Frame
  | index (id : Nat) (w : Index.Waiting)
  | gate (index number : Nat) (weak : Scenario.Weak) (c : Index.Call)
  | failing (intake : Nat) (meanwhile : List (String × String))
  | reconcile (index : Nat) (root : String) (filter : Filter) (sink : Sink)
      (w : Reconciliation.Waiting)
  | intake (id : Nat) (w : Intake.Waiting)
  | watch (id : Nat) (w : Watch.Waiting)
  | feed (id : Nat) (w : Feed.Waiting)
  | keeper (id : Nat) (w : Keeper.Waiting)
  | launched (watch intake : Nat)
  | tools (w : Tools.Waiting)
  | command (w : Command.Waiting)
  | record (label : String) (p : Watch.Payload) (fails : Bool)
  | lock (l : LockOf)
  | listen (feed ticket : Nat)
  | served
  | all (tasks : List Nat)
  | seq (rest : List Scenario.Step) (done : List Outcome)

/-- What a task does next: its innermost call is over, it makes another call, or it waits until
somebody wakes it, and then goes on in a frame of its own if there is one. -/
inductive Move
  | finish (o : Outcome)
  | call (c : Call) (f : Frame)
  | pass (c : Call)
  | block
  | blockIn (f : Frame)

/-- What a task is for, as far as somebody wants to know of its end. -/
inductive Tag
  | plain
  | save (index ticket : Nat)
  | batch (intake ticket : Nat)
  | job (watch ticket : Nat)
  | run (feed ticket : Nat)
  deriving DecidableEq, Repr

/-- Who waits for a task: another task, or a group. -/
inductive Waiter
  | task (id : Nat)
  | group (id : Nat)
  deriving DecidableEq, Repr

/-- A call with all that waits for it, innermost first. -/
structure Task where
  tag : Tag
  stack : List Frame
  outcome : Option Outcome
  waiters : List Waiter

/-- What happens when a timer is due. -/
inductive Alarm
  | wake (task : Nat)
  | save (index ticket : Nat)
  | quiet (intake ticket : Nat)
  | gather (intake ticket : Nat)
  | fire (watch ticket : Nat) (path : String)
  deriving DecidableEq, Repr

/-- A timer; times are in milliseconds from the start. -/
structure Timer where
  due : Int
  alarm : Alarm
  deriving DecidableEq, Repr

/-- What is ready to be done. Nothing is done for what has been taken back. -/
inductive Ready
  | nothing
  | begin (task : Nat) (c : Call)
  | resume (task : Nat) (o : Outcome)
  | alarm (a : Alarm)
  | ended (task : Nat)
  | wake (waiter : Waiter) (task : Nat)

/-- A group of tasks that is waited for: how many are left, and who waits. -/
structure Group where
  left : Nat
  waiter : Nat
  deriving DecidableEq, Repr

/-- What the system tells one run of a feed, and who listens. -/
structure Channel where
  feed : Nat
  ticket : Nat
  items : List Feed.Item
  closed : Bool
  listener : Option Nat

/-- Where a watch gets its changes from. -/
inductive Backend
  | scripted (failure : Option String)
  | feed (id : Nat)
  | broken (message : String)
  deriving DecidableEq, Repr

/-- An intake with the index that it feeds and the watch that it is attached to. -/
structure IntakeSlot where
  intake : Intake
  index : Nat
  watch : Option Nat

structure WatchSlot where
  watch : Watch
  backend : Backend

/-- What is recorded for the reader of a scenario. -/
inductive Event
  | listener (label : String) (changes : List Notice)
  | handler (label : String) (p : Watch.Payload)
  | backendStart (paths : List String)
  | backendStop
  | backendAdd (path : String)
  | backendUnwatch (path : String)
  | subscribed (paths : List String) (options : Feed.Options)
  | changes (cs : List Sighting)
  | fatal (f : Failure)
  | progress (current : Nat) (total : Option Nat) (message : String)

/-- What stands in the way of an operation: so many calls fail, while changes arrive at the intake;
or the first call waits at a gate. -/
inductive Obstacle
  | fault (times : Nat) (meanwhile : List (String × String))
  | gate (entered isOpen : Bool) (waiting : Option Nat)

/-- An obstacle before an operation of an index; writing fails whatever index writes. Later ones
are met first. -/
structure Hurdle where
  number : Nat
  index : Nat
  weak : Scenario.Weak
  obstacle : Obstacle

/-- What the steps of a scenario refer to. -/
structure Stage where
  index : Option Nat
  intake : Option Nat
  watch : Option Nat
  feed : Option Nat
  keeper : Option Nat
  listeners : List (String × Listener)
  handlers : List (String × Watch.Handler)
  tasks : List (String × Nat)
  hurdles : List Hurdle
  brokenBackend : Option String

def Stage.empty : Stage :=
  ⟨none, none, none, none, none, [], [], [], [], none⟩

end World

/-- Everything there is: a disk, a clock, the components, and the tasks that work on them. -/
structure World where
  disk : Disk
  env : Environment
  clock : Int
  timers : List World.Timer
  ready : List World.Ready
  tasks : Array World.Task
  groups : Array World.Group
  indexes : Array Index
  intakes : Array World.IntakeSlot
  watches : Array World.WatchSlot
  feeds : Array Feed
  channels : Array World.Channel
  keepers : Array Keeper
  sharedKeeper : Option Nat
  serving : Option Nat
  stage : World.Stage
  events : List World.Event
  log : List (Level × String)
  output : String
  errors : String

namespace World

def create (disk : Disk) (env : Environment) : World where
  disk
  env
  clock := 0
  timers := []
  ready := []
  tasks := #[]
  groups := #[]
  indexes := #[]
  intakes := #[]
  watches := #[]
  feeds := #[]
  channels := #[]
  keepers := #[]
  sharedKeeper := none
  serving := none
  stage := .empty
  events := []
  log := []
  output := ""
  errors := ""

abbrev Act := StateM World

/-- The time of the start, in milliseconds since the start of 1970. -/
def startTime : Int := 1700000000000

/-- The time in milliseconds since the start of 1970. -/
def now : Act Int := do
  return startTime + (← get).clock

def record (e : Event) : Act Unit :=
  modify fun w => { w with events := w.events ++ [e] }

def writeLog (level : Level) (text : String) : Act Unit :=
  modify fun w => { w with log := w.log ++ [(level, text)] }

def printError (text : String) : Act Unit :=
  modify fun w => { w with errors := w.errors ++ text }

def print (text : String) : Act Unit :=
  modify fun w => { w with output := w.output ++ text }

/-- Adds something to what is ready, at the end. -/
def enqueue (r : Ready) : Act Unit :=
  modify fun w => { w with ready := w.ready ++ [r] }

/-- Starts a task; it begins when its turn comes. -/
def spawn (tag : Tag) (c : Call) : Act Nat := do
  let w ← get
  let id := w.tasks.size
  set { w with tasks := w.tasks.push ⟨tag, [], none, []⟩ }
  enqueue (.begin id c)
  return id

def arm (delay : Int) (a : Alarm) : Act Unit :=
  modify fun w => { w with timers := w.timers ++ [⟨w.clock + delay, a⟩] }

/-- Takes an alarm back; its turn stays. -/
def Ready.without (p : Alarm → Bool) : Ready → Ready
  | .alarm a => if p a then .nothing else .alarm a
  | r => r

/-- Takes timers back, those included that are due already. -/
def disarm (p : Alarm → Bool) : Act Unit :=
  modify fun w =>
    { w with
      timers := w.timers.filter fun t => !p t.alarm
      ready := w.ready.map (Ready.without p) }

def showProgress (sink : Sink) (current : Nat) (total : Option Nat) (message : String) :
    Act Unit :=
  match sink with
  | .none => pure ()
  | .record => record (.progress current total message)
  | .display => print (Report.progress current (total.map fun n => (n : Rat)) message)

def taskOf (w : World) (tag : Tag) : Option Nat :=
  w.tasks.findIdx? fun t => t.tag = tag

def tasksOf (w : World) (tags : List Tag) : List Nat :=
  tags.filterMap w.taskOf

end World

end LiveIndex
