import LiveIndex.Intake.Basic

/-! The calls of an intake. One batch is applied at a time; what arrives meanwhile, and what
failed and may be tried again, is queued for the next one. -/

namespace LiveIndex.Intake

/-- What can be asked of an intake and may take a while. `batch` is the work of a started
batch. -/
inductive Call
  | change (kind : String) (path : String)
  | directoryChange (kind : String) (path : String)
  | batch (ticket : Nat)
  | flush
  | destroy

inductive Request
  | lookUp (path : String)
  | store (entries : List Entry)
  | remove (path : String)
  | batch (ticket : Nat)

/-- On whose behalf a batch is applied. -/
inductive Purpose
  | timed (ticket : Nat)
  | flush
  | destroy

/-- A batch that is being applied: the removals that are left, and what failed. -/
structure Round where
  purpose : Purpose
  removals : List Change
  failed : List Change

inductive Waiting
  | lookingUp (ticket : Nat) (kind : WatchKind) (path : String)
  | storing (stores : List Change) (round : Round)
  | removing (current : Change) (round : Round)
  | joining (purpose : Purpose)

abbrev Work := Stretch Intake Effect Request Waiting Unit

/-- Queues a change whose metadata is known, unless a newer one of its path has arrived. -/
def accept (ix : Intake) (c : Change) : Work :=
  if ix.latest.get? c.path = some c.arrival then
    let (ix, effects) := { ix with latest := ix.latest.erase c.path }.enqueue c
    .done ix effects ()
  else .done ix [] ()

/-- Takes a change in. Its metadata is looked up unless it is a removal. -/
def receive (ix : Intake) (kind : WatchKind) (path : String) : Work :=
  if ix.destroyed then .done ix [] ()
  else
    let ticket := ix.ticket
    let ix := { ix with ticket := ticket + 1, latest := ix.latest.insert path ticket }
    if kind.isRemoval then ix.accept ⟨kind, path, none, 0, ticket⟩
    else .ask ix [] (.lookUp path) (.lookingUp ticket kind path)

/-- The metadata of a changed path is known. A path that has vanished is dropped. -/
def lookedUp (ix : Intake) (ticket : Nat) (kind : WatchKind) (path : String) :
    Except Failure Entry → Work
  | .ok e => ix.accept ⟨kind, path, some e, 0, ticket⟩
  | .error f =>
    if f.family = .system then
      if ix.latest.get? path = some ticket then
        .done { ix with latest := ix.latest.erase path } [] ()
      else .done ix [] ()
    else .failed ix [] f

/-- Ends the call on whose behalf a batch was applied. -/
def conclude (ix : Intake) : Purpose → Work
  | .timed ticket =>
    .done { ix with batch := if ix.batch = some ticket then none else ix.batch } [] ()
  | .flush => .done ix [] ()
  | .destroy =>
    let (ix, effects) := { ix with destroyed := true }.disarmTimers
    .done { ix with queue := .empty, latest := .empty } effects ()

/-- A batch is over. What failed is queued again, and what is queued gets a new round. -/
def roundOver (ix : Intake) (round : Round) : Work :=
  -- Changes that arrived meanwhile are in the queue already and stand before failed ones.
  let (ix, effects) := ix.retryAll round.failed
  let ix := { ix with processing := false }
  if ix.queue.isEmpty || ix.destroyed then (ix.conclude round.purpose).after effects
  else
    let (ix, more) := ix.awaitQuiet
    (ix.conclude round.purpose).after (effects ++ more)

/-- Goes on with the removals of a batch. -/
def nextRemoval (ix : Intake) (round : Round) : Work :=
  match round.removals with
  | [] => ix.roundOver round
  | c :: rest => .ask ix [] (.remove c.path) (.removing c { round with removals := rest })

/-- Applies all that is queued as one batch, unless one is being applied. -/
def process (ix : Intake) (purpose : Purpose) : Work :=
  if ix.processing || ix.queue.isEmpty then ix.conclude purpose
  else
    let changes := ix.queue.values
    let stores := changes.filter fun c => !c.isRemoval
    let round : Round := ⟨purpose, changes.filter Change.isRemoval, []⟩
    let ix := { ix with processing := true, queue := .empty }
    if stores.isEmpty then ix.nextRemoval round
    else .ask ix [] (.store (stores.filterMap Change.entry)) (.storing stores round)

def stored (ix : Intake) (stores : List Change) (round : Round) : Except Failure Unit → Work
  | .ok () => ix.nextRemoval round
  | .error f =>
    (ix.nextRemoval { round with failed := round.failed ++ stores }).after
      [ .log .warning
          ("Failed to apply " ++ toString stores.length ++ " index updates: " ++ f.message) ]

def removed (ix : Intake) (current : Change) (round : Round) : Except Failure Unit → Work
  | .ok () => ix.nextRemoval round
  | .error f =>
    (ix.nextRemoval { round with failed := round.failed ++ [current] }).after
      [.log .warning ("Failed to remove " ++ current.path ++ ": " ++ f.message)]

/-- Applies what is queued now. -/
def flushNow (ix : Intake) (purpose : Purpose) : Work :=
  let (ix, effects) := ix.disarmTimers
  (ix.process purpose).after effects

/-- Applies what is queued, after the batch that runs. -/
def beginFlush (ix : Intake) (purpose : Purpose) : Work :=
  let (ix, effects) := ix.disarmTimers
  match ix.batch with
  -- The batch may arm a timer again at its end, so timers are taken back once more after it.
  | some ticket => .ask ix effects (.batch ticket) (.joining purpose)
  | none => (ix.flushNow purpose).after effects

def unknownKind (kind : String) : Failure :=
  .unknownChange (Text.quoted kind)

def beginDirectoryChange (ix : Intake) (kind : String) (path : String) : Work :=
  match WatchKind.ofWord? kind with
  | some k =>
    if k.ofDirectory then ix.receive k path
    else .failed ix [] (.unknownDirectoryChange (Text.quoted k.word))
  | none => .failed ix [] (.unknownDirectoryChange (Text.quoted kind))

def beginChange (ix : Intake) (kind : String) (path : String) : Work :=
  match WatchKind.ofWord? kind with
  | some k => ix.receive k path
  | none => .failed ix [] (unknownKind kind)

def begin (ix : Intake) : Call → Work
  | .change kind path => ix.beginChange kind path
  | .directoryChange kind path => ix.beginDirectoryChange kind path
  | .batch ticket => ix.process (.timed ticket)
  | .flush => ix.beginFlush .flush
  | .destroy => (ix.beginFlush .destroy).after [.detach]

end LiveIndex.Intake
