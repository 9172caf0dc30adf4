import LiveIndex.Loop.Stretch
import LiveIndex.Watch.Sighting

/-! A source of sightings that can be pointed at other paths while it runs: every set of paths
has a run of its own, and the run before is told to stop. -/

namespace LiveIndex

namespace Feed

/-- The settings of a feed; times are in milliseconds. -/
structure Options where
  forcePolling : Bool
  pollDelay : Int
  debounce : Int
  deriving DecidableEq, Repr

def Options.default : Options :=
  ⟨false, 300, 50⟩

/-- Who gets what a feed reports: a watch, or the record. -/
inductive Target
  | watch (id : Nat)
  | record
  deriving DecidableEq, Repr

/-- What a feed hears from the system: a batch of changes, a failure, or the end. -/
inductive Item
  | changes (cs : List Sighting)
  | failure (f : Failure)
  | closed

/-- What a feed has done elsewhere. Its runs go by tickets. -/
inductive Effect
  | startRun (ticket : Nat)
  | signal (ticket : Nat)
  | subscribe (ticket : Nat) (paths : List String)
  | changes (target : Target) (cs : List Sighting)
  | fatal (target : Target) (f : Failure)

end Feed

/-- A source of sightings of a set of paths. Each change of the set starts a new run and tells the
run before to stop. -/
structure Feed where
  options : Feed.Options
  paths : List String
  target : Option Feed.Target
  current : Option Nat
  last : Option Nat
  replaced : List Nat
  stopped : List Nat
  ended : List Nat
  ticket : Nat

namespace Feed

def create (options : Options) : Feed where
  options
  paths := []
  target := none
  current := none
  last := none
  replaced := []
  stopped := []
  ended := []
  ticket := 0

/-- Whether a run goes on. -/
def isRunning (f : Feed) : Bool :=
  match f.current with
  | some run => run ∉ f.ended
  | none => false

def launch (f : Feed) : Feed × List Effect :=
  ({ f with current := some f.ticket, last := some f.ticket, ticket := f.ticket + 1 },
    [.startRun f.ticket])

/-- Tells the last run to stop. -/
def signalLast (f : Feed) : Feed × List Effect :=
  match f.last with
  | some run => ({ f with stopped := run :: f.stopped }, [.signal run])
  | none => (f, [])

/-- Replaces the run, if there is one. -/
def replaceRun (f : Feed) : Feed × List Effect :=
  match f.current with
  | none => (f, [])
  | some run =>
    let (f, signalled) := f.signalLast
    let f := if run ∈ f.ended then f else { f with replaced := f.replaced ++ [run] }
    let (f, launched) := f.launch
    (f, signalled ++ launched)

def addPath (f : Feed) (path : String) : Feed × List Effect :=
  if path ∈ f.paths then (f, []) else { f with paths := f.paths ++ [path] }.replaceRun

def unwatchPath (f : Feed) (path : String) : Feed × List Effect :=
  if path ∈ f.paths then { f with paths := f.paths.erase path }.replaceRun else (f, [])

/-- Starts to report changes of paths. -/
def start (f : Feed) (target : Target) (paths : List String) : Feed × List Effect :=
  { f with paths := paths.eraseDups, target := some target }.launch

/-- What can be asked of a feed and may take a while: the work of a run, and to stop. -/
inductive Call
  | run (ticket : Nat)
  | stop

inductive Request
  | next (ticket : Nat)
  | runs (tickets : List Nat)

inductive Waiting
  | listening (ticket : Nat)
  | stopping

abbrev Work := Stretch Feed Effect Request Waiting Unit

def endRun (f : Feed) (ticket : Nat) (effects : List Effect) : Work :=
  .done { f with ended := ticket :: f.ended } effects ()

/-- The end of a run has become known: nobody has to wait for it any more. -/
def runOver (f : Feed) (ticket : Nat) : Feed :=
  { f with replaced := f.replaced.erase ticket }

/-- Starts to listen, if there is anything to listen to. -/
def beginRun (f : Feed) (ticket : Nat) : Work :=
  if f.paths.isEmpty then f.endRun ticket []
  else .ask f [.subscribe ticket f.paths] (.next ticket) (.listening ticket)

/-- Reports what was heard, unless the run has been told to stop. -/
def heard (f : Feed) (d : Disk) (ticket : Nat) : Item → Work
  | .closed => f.endRun ticket []
  | .changes cs =>
    -- What comes after the sign to stop is dropped.
    if ticket ∈ f.stopped then f.endRun ticket []
    else
      .ask f (f.target.toList.map fun t => .changes t (Sighting.condense d cs)) (.next ticket)
        (.listening ticket)
  | .failure e =>
    f.endRun ticket
      (if ticket ∈ f.stopped then [] else f.target.toList.map fun t => .fatal t e)

/-- Stops all runs and waits for them. -/
def beginStop (f : Feed) : Work :=
  let (f, signalled) := f.signalLast
  let runs := f.current.toList ++ f.replaced
  let f := { f with current := none, replaced := [] }
  if runs.isEmpty then .done f signalled () else .ask f signalled (.runs runs) .stopping

def begin (f : Feed) : Call → Work
  | .run ticket => f.beginRun ticket
  | .stop => f.beginStop

end Feed

end LiveIndex
