import LiveIndex.Watch.Basic

/-! The calls of a watch. Stopping takes back all timers at once and then waits for what still
runs. -/

namespace LiveIndex.Watch

/-- What can be asked of a watch and may take a while. -/
inductive Call
  | start
  | stop
  | expand (path : String)

inductive Request
  | walk (path : String)
  | startBackend (paths : List String)
  | stopBackend
  | jobs (tickets : List Nat)

inductive Waiting
  | learning
  | starting (initial : List Entry)
  | stopping (wasRunning : Bool)
  | settling
  | expanding

/-- Starting answers whether it succeeded. -/
abbrev Work := Stretch Watch Effect Request Waiting (Option Bool)

/-- Starts a watch: first the tree is walked. -/
def beginStart (w : Watch) : Work :=
  if w.running then
    let (w, told) := w.emit .warning (.message "Watcher already started")
    .done w (.log .warning ("File watcher already started for " ++ w.root) :: told)
      (some false)
  else .ask { w with running := true } [] (.walk w.root) .learning

/-- The tree is known: the backend is started. -/
def learned (w : Watch) : Except Failure (List Entry) → Work
  | .error f => .failed w [] f
  | .ok initial =>
    let dirs := (initial.filter Entry.isDirectory).map Entry.path
    let w := { w with knownDirs := dirs.foldl addKnown [] }
    .ask w [] (.startBackend w.watchedPaths) (.starting initial)

/-- The backend runs, or has failed. -/
def started (w : Watch) (now : Int) (initial : List Entry) : Except Failure Unit → Work
  | .error f =>
    let (w, effects) := w.fatal f
    .done w effects (some false)
  | .ok () =>
    let (w, queued) := if w.ignoreInitial then (w, []) else w.queueFound now initial
    let (w, told) := { w with ready := true }.emit .ready .nothing
    .done w (queued ++ told) (some true)

def beginStop (w : Watch) : Work :=
  let wasRunning := w.running
  let (w, effects) := w.halt
  .ask w effects .stopBackend (.stopping wasRunning)

/-- Waits for the jobs that run, as long as there are any. -/
def settle (w : Watch) (effects : List Effect) : Work :=
  if w.jobs.isEmpty then .done w effects none else .ask w effects (.jobs w.jobs) .settling

def stopped (w : Watch) (wasRunning : Bool) : Work :=
  let (w, told) := if wasRunning then w.emit .stopped .nothing else (w, [])
  w.settle told

/-- A new directory has been walked. -/
def expanded (w : Watch) (now : Int) : Except Failure (List Entry) → Work
  | .error f => .failed w [] f
  | .ok found =>
    if w.running then
      let (w, effects) := w.queueNew now found
      .done w effects none
    else .done w [] none

def begin (w : Watch) : Call → Work
  | .start => w.beginStart
  | .stop => w.beginStop
  | .expand path => .ask w [] (.walk path) .expanding

end LiveIndex.Watch
