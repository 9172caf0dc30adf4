import LiveIndex.Keeper.Basic
import LiveIndex.Loop.Stretch

/-! The calls of a keeper, which hands work to its index, its watch and its intake. Only the
first initialization does anything. -/

namespace LiveIndex

/-- Where steps of work are shown: nowhere, in the record, or to the user. -/
inductive Sink
  | none
  | record
  | display
  deriving DecidableEq, Repr

namespace Keeper

/-- What can be asked of a keeper and may take a while. -/
inductive Call
  | prepare (reconcile : Bool)
  | scan (sink : Sink)
  | reconcile (sink : Sink)
  | refresh (sink : Sink)
  | refreshFile (path : String)
  | startWatching (listener : Option Listener)
  | stopWatching
  | destroy

/-- What a call answers. -/
inductive Answer
  | nothing
  | flag (b : Bool)
  | count (n : Nat)
  | summary (s : Summary)
  | entry (e : Option Entry)

/-- What a keeper has done elsewhere. -/
inductive Effect
  | progress (sink : Sink) (current : Nat) (total : Option Nat) (message : String)
  | clear
  | listen (l : Listener)
  | unlisten (l : Listener)
  | unlock

inductive Request
  | lock
  | load (root path : String)
  | scan (sink : Sink)
  | reconcile (sink : Sink)
  | walk
  | store (entries : List Entry)
  | save
  | lookUp (path : String)
  | remove (path : String)
  | launch (settings : Launch)
  | stopWatching (watch : Nat)
  | stopIntake (intake : Nat)
  | stopIndex

/-- What follows when watching has stopped. -/
inductive AfterStop
  | answer
  | destroy

inductive Waiting
  | entering (reconcile : Bool)
  | loading (reconcile : Bool)
  | building
  | walking (sink : Sink)
  | storing (sink : Sink) (count : Nat)
  | reconciling
  | rescanning
  | resaving
  | lookingUp (path : String)
  | forgetting
  | refreshing (e : Entry)
  | launching (listener : Option Listener)
  | discarding
  | stoppingWatch (after : AfterStop)
  | stoppingIntake (after : AfterStop)
  | stoppingIndex

abbrev Work := Stretch Keeper Effect Request Waiting Answer

/-- The turn of an initialization has come. Only the first one does anything: the root is checked
and the stored index is loaded. -/
def entered (k : Keeper) (env : Environment) (d : Disk) (reconcile : Bool) : Work :=
  if k.initialized then .done k [.unlock] .nothing
  else
    match d.contentRoot env.home k.root with
    | .error f => .failed k [.unlock] f
    | .ok root => .ask { k with root } [] (.load root k.indexPath) (.loading reconcile)

/-- The initialization is over. -/
def built (k : Keeper) : Except Failure Unit → Work
  | .error f => .failed k [.unlock] f
  | .ok () => .done { k with initialized := true } [.unlock] .nothing

/-- The stored index is loaded. An empty one is built by a scan, another one is brought up to
date. -/
def loaded (k : Keeper) (size : Nat) (reconcile : Bool) : Except Failure Unit → Work
  | .error f => .failed k [.unlock] f
  | .ok () =>
    if size = 0 then .ask k [] (.scan .none) .building
    else if reconcile then .ask k [] (.reconcile .none) .building
    else k.built (.ok ())

def beginScan (k : Keeper) (sink : Sink) : Work :=
  .ask k [.progress sink 0 none ("Scanning " ++ k.root ++ "...")] .walk (.walking sink)

/-- The root has been walked. -/
def walked (k : Keeper) (sink : Sink) : Except Failure (List Entry) → Work
  | .error f => .failed k [] f
  | .ok es =>
    let n := es.length
    .ask k [.progress sink 0 (some n) ("Indexing " ++ toString n ++ " entries...")] (.store es)
      (.storing sink n)

/-- A scan is stored. -/
def stored (k : Keeper) (sink : Sink) (n : Nat) : Except Failure Summary → Work
  | .error f => .failed k [] f
  | .ok s => .done k [.progress sink n (some n) "Scan complete"] (.summary s)

def reconciled (k : Keeper) : Except Failure Nat → Work
  | .error f => .failed k [] f
  | .ok n => .done k [] (.count n)

/-- The emptied index has been scanned anew. -/
def rescanned (k : Keeper) : Except Failure Unit → Work
  | .error f => .failed k [] f
  | .ok () => .ask k [] .save .resaving

def resaved (k : Keeper) (size : Nat) : Except Failure Unit → Work
  | .error f => .failed k [] f
  | .ok () => .done k [] (.count size)

/-- Reads one path anew. -/
def beginRefreshFile (k : Keeper) (path : String) : Work :=
  let path := Path.tidyJoin "/" path
  .ask k [] (.lookUp path) (.lookingUp path)

/-- Whether an entry at a path is indexed at all. -/
def wants (k : Keeper) (path : String) (e : Entry) : Bool :=
  match relativeTo path k.root with
  | .error _ => false
  | .ok relativePath =>
    !k.filter.excludes relativePath && (e.isDirectory || k.filter.wantsExtension path)

/-- One path has been read. A path that has vanished or is not to be indexed is removed. -/
def lookedUp (k : Keeper) (path : String) : Except Failure Entry → Work
  | .error f =>
    if f.family = .system then .ask k [] (.remove path) .forgetting else .failed k [] f
  | .ok e =>
    if k.wants path e then .ask k [] (.store [e]) (.refreshing e)
    else .ask k [] (.remove path) .forgetting

def refreshed (k : Keeper) (e : Option Entry) : Except Failure Unit → Work
  | .error f => .failed k [] f
  | .ok () => .done k [] (.entry e)

/-- Starts watching, unless a watch runs. -/
def beginWatching (k : Keeper) (env : Environment) (watching : Bool) (l : Option Listener) :
    Work :=
  if watching then .done k [] (.flag false)
  else
    match k.launch env with
    | .error f => .failed k [] f
    | .ok settings => .ask k [] (.launch settings) (.launching l)

/-- A watch and its intake were made; the watch has started or not. -/
def launched (k : Keeper) (l : Option Listener) : Except Failure (Nat × Nat × Bool) → Work
  | .error f => .failed k [] f
  | .ok (watch, intake, true) =>
    let k := { k with watch := some watch, intake := some intake }
    match l with
    | some l => .done { k with listener := some l } [.listen l] (.flag true)
    | none => .done k [] (.flag true)
  -- A watch that has not started is not kept, and neither is its intake.
  | .ok (_, intake, false) => .ask k [] (.stopIntake intake) .discarding

def discarded (k : Keeper) : Except Failure Unit → Work
  | .error f => .failed k [] f
  | .ok () => .done k [] (.flag false)

/-- Watching has stopped altogether. -/
def watchingOver (k : Keeper) (after : AfterStop) : Work :=
  let unlistened := k.listener.toList.map Effect.unlisten
  let k := { k with listener := none }
  match after with
  | .answer => .done k unlistened .nothing
  | .destroy => .ask k unlistened .stopIndex .stoppingIndex

def intakeStopped (k : Keeper) (after : AfterStop) : Except Failure Unit → Work
  | .error f => .failed k [] f
  | .ok () => k.watchingOver after

def stopIntake (k : Keeper) (after : AfterStop) : Work :=
  match k.intake with
  | some ix => .ask k [] (.stopIntake ix) (.stoppingIntake after)
  | none => k.watchingOver after

def watchStopped (k : Keeper) (after : AfterStop) : Except Failure Unit → Work
  | .error f => .failed k [] f
  | .ok () => { k with watch := none }.stopIntake after

/-- Stops watching: the watch, then the intake, which applies what it has. -/
def beginStop (k : Keeper) (after : AfterStop) : Work :=
  match k.watch with
  | some w => .ask k [] (.stopWatching w) (.stoppingWatch after)
  | none => k.stopIntake after

def indexStopped (k : Keeper) : Except Failure Unit → Work
  | .error f => .failed k [] f
  | .ok () => .done { k with initialized := false } [] .nothing

def begin (k : Keeper) (env : Environment) (watching : Bool) : Call → Work
  | .prepare reconcile => .ask k [] .lock (.entering reconcile)
  | .scan sink => k.beginScan sink
  | .reconcile sink => .ask k [] (.reconcile sink) .reconciling
  | .refresh sink => .ask k [.clear] (.scan sink) .rescanning
  | .refreshFile path => k.beginRefreshFile path
  | .startWatching l => k.beginWatching env watching l
  | .stopWatching => k.beginStop .answer
  | .destroy => k.beginStop .destroy

end Keeper

end LiveIndex
