import LiveIndex.Entry
import LiveIndex.Loop.Stretch
import LiveIndex.Store.OrderedMap

/-! Changes on their way into an index. The latest change of a path counts; a quiet time passes
before changes are gathered, and another time before they are applied. -/

namespace LiveIndex

/-- What happened to a watched path. -/
inductive WatchKind
  | add
  | change
  | remove
  | addDirectory
  | removeDirectory
  deriving DecidableEq, Repr

namespace WatchKind

def word : WatchKind → String
  | add => "add"
  | change => "change"
  | remove => "remove"
  | addDirectory => "add-directory"
  | removeDirectory => "remove-directory"

/-- Reads a kind; some have a second name. -/
def ofWord? : String → Option WatchKind
  | "add" => some add
  | "change" => some change
  | "remove" | "unlink" => some remove
  | "add-directory" | "addDir" => some addDirectory
  | "remove-directory" | "unlinkDir" => some removeDirectory
  | _ => none

def isRemoval : WatchKind → Bool
  | remove | removeDirectory => true
  | _ => false

def ofDirectory : WatchKind → Bool
  | addDirectory | removeDirectory => true
  | _ => false

end WatchKind

namespace Intake

/-- A queued change of a path, with the ticket that it drew when it arrived. All but removals carry
the entry that was found then. -/
structure Change where
  kind : WatchKind
  path : String
  entry : Option Entry
  retries : Nat
  arrival : Nat
  deriving DecidableEq, Repr

def Change.isRemoval (c : Change) : Bool :=
  c.kind.isRemoval

/-- The settings of an intake; times are in milliseconds. -/
structure Options where
  debounce : Int
  window : Int
  maxRetries : Int
  deriving DecidableEq, Repr

def Options.default : Options :=
  ⟨300, 1000, 3⟩

end Intake

/-- Changes on their way into an index. `latest` holds the last arrival at each path whose metadata
is still looked up. The quiet timer runs while changes arrive, the gather timer after that; `batch`
is the batch that was started last, until it is over. -/
structure Intake where
  root : String
  options : Intake.Options
  queue : OrderedMap String Intake.Change
  latest : OrderedMap String Nat
  missed : Nat
  quietTimer : Option Nat
  gatherTimer : Option Nat
  batch : Option Nat
  processing : Bool
  destroyed : Bool
  ticket : Nat

namespace Intake

def create (root : String) (options : Options) : Intake where
  root
  options
  queue := .empty
  latest := .empty
  missed := 0
  quietTimer := none
  gatherTimer := none
  batch := none
  processing := false
  destroyed := false
  ticket := 1

/-- What an intake has done elsewhere. Timers and batches go by tickets. -/
inductive Effect
  | log (level : Level) (text : String)
  | armQuiet (ticket : Nat) (delay : Int)
  | armGather (ticket : Nat) (delay : Int)
  | disarm (ticket : Nat)
  | startBatch (ticket : Nat)
  | detach

/-- Restarts the quiet timer. -/
def awaitQuiet (ix : Intake) : Intake × List Effect :=
  ({ ix with quietTimer := some ix.ticket, ticket := ix.ticket + 1 },
    ix.quietTimer.toList.map Effect.disarm ++ [.armQuiet ix.ticket ix.options.debounce])

/-- Things have been quiet: the gather timer is restarted. -/
def quiet (ix : Intake) : Intake × List Effect :=
  ({ ix with quietTimer := none, gatherTimer := some ix.ticket, ticket := ix.ticket + 1 },
    ix.gatherTimer.toList.map Effect.disarm ++ [.armGather ix.ticket ix.options.window])

/-- The changes that were gathered are to be applied, unless a batch is being applied already. -/
def gathered (ix : Intake) : Intake × List Effect :=
  let ix := { ix with gatherTimer := none }
  if ix.processing || ix.queue.isEmpty then (ix, [])
  else
    ({ ix with batch := some ix.ticket, ticket := ix.ticket + 1 }, [.startBatch ix.ticket])

def disarmTimers (ix : Intake) : Intake × List Effect :=
  ({ ix with quietTimer := none, gatherTimer := none },
    ix.quietTimer.toList.map Effect.disarm ++ ix.gatherTimer.toList.map Effect.disarm)

/-- Queues a change in place of an earlier one of its path. -/
def enqueue (ix : Intake) (c : Change) : Intake × List Effect :=
  if ix.destroyed then (ix, [])
  else { ix with queue := ix.queue.insert c.path c }.awaitQuiet

/-- Queues a failed change again, unless a newer one of its path is queued or it was tried often
enough. -/
def retry (ix : Intake) (c : Change) : Intake × List Effect :=
  if ix.queue.contains c.path then (ix, [])
  else if ix.options.maxRetries < (c.retries + 1 : Nat) then
    ({ ix with missed := ix.missed + 1 },
      [ .log .warning ("Giving up on " ++ c.kind.word ++ " for " ++ c.path ++ " after " ++
          toString ix.options.maxRetries ++ " retries") ])
  else ({ ix with queue := ix.queue.insert c.path { c with retries := c.retries + 1 } }, [])

def retryAll (ix : Intake) : List Change → Intake × List Effect
  | [] => (ix, [])
  | c :: rest =>
    let (ix, effects) := ix.retry c
    let (ix, more) := ix.retryAll rest
    (ix, effects ++ more)

end Intake

end LiveIndex
