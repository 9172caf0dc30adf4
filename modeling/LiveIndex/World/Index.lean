import LiveIndex.World.Primitives

/-! Indexes, reconciliations and intakes at work. The components say what they want; here it is
looked up, written or handed to the one that does it. -/

namespace LiveIndex.World

/-- Tells a listener of changes. -/
def deliver (l : Listener) (changes : List Notice) : Act Unit := do
  match l with
  | .recorder label fails =>
    record (.listener label changes)
    if fails then
      writeLog .warning ("Error in index listener: " ++ Watch.recorderFailure.message)
  | .report => printError (Tools.updateText changes)

def performIndex (id : Nat) : Index.Effect → Act Unit
  | .log level text => writeLog level text
  | .deliver l changes => deliver l changes
  | .arm ticket delay => arm delay (.save id ticket)
  | .disarm ticket => disarm (· = .save id ticket)
  | .startSave ticket => discard (spawn (.save id ticket) (.index id .save))
  | .unlock => unlock (.index id)

/-- Whether an obstacle still has an effect. -/
def Obstacle.isActive : Obstacle → Bool
  | .fault times _ => times ≠ 0
  | .gate entered _ _ => !entered

/-- The first active hurdle before an operation among those with a smaller number. -/
def hurdleBefore (w : World) (id : Nat) (weak : Scenario.Weak) (below : Nat) : Option Hurdle :=
  w.stage.hurdles.find? fun h =>
    (h.index = id || weak = .write) && h.weak = weak && h.number < below &&
      h.obstacle.isActive

def setObstacle (number : Nat) (o : Obstacle) : Act Unit :=
  modify fun w =>
    let set (h : Hurdle) : Hurdle := if h.number = number then { h with obstacle := o } else h
    { w with stage := { w.stage with hurdles := w.stage.hurdles.map set } }

/-- What a full disk is reported as. -/
def diskFull : Failure :=
  .device "disk full"

def writeIndex (id : Nat) (path : String) (s : Snapshot) : Act (Except Failure Unit) := do
  let w ← get
  match w.hurdleBefore id .write w.stage.hurdles.length with
  | some ⟨number, _, _, .fault times meanwhile⟩ =>
    setObstacle number (.fault (times - 1) meanwhile)
    return .error diskFull
  | _ =>
    let (disk, result) := w.disk.storeSnapshot path s
    set { w with disk }
    return result

/-- The call that an index's request stands for. -/
def indexRequest (id : Nat) : Index.Request → Act Call
  | .read path => do
    return .offload (((← get).disk.loadSnapshot path).map .snapshot)
  | .lock => return .lock (.index id)
  | .write path s => do
    return .offload ((← writeIndex id path s).map fun _ => .nothing)
  | .saves tickets => do
    return .gather ((← get).tasksOf (tickets.map fun ticket => .save id ticket))

def indexAnswer : Index.Answer → Answer
  | .nothing => .nothing
  | .flag b => .flag b
  | .count n => .count n
  | .summary s => .summary s

/-- Does a stretch of an index's work. -/
def runIndex (id : Nat) (work : Index → Index.Work) : Act Move := do
  let stretch := work ((← get).indexOf id)
  setIndex id stretch.state
  stretch.effects.forM (performIndex id)
  match stretch.turn with
  | .done r => return .finish (r.map indexAnswer)
  | .ask request waiting => return .call (← indexRequest id request) (.index id waiting)

/-- Does work of an index that takes no time. -/
def changeIndex (id : Nat) (change : Index → Index × List Index.Effect) : Act Unit := do
  let (s, effects) := change ((← get).indexOf id)
  setIndex id s
  effects.forM (performIndex id)

/-- Lets the changes of a failing call arrive one after another, then fails. -/
def failNext (intake : Nat) : List (String × String) → Move
  | [] => .finish (.error diskFull)
  | (kind, path) :: rest => .call (.intake intake (.change kind path)) (.failing intake rest)

/-- Starts a call of an index behind the hurdles before it that have smaller numbers. The fuel
bounds their number. -/
def passHurdles (me id : Nat) (weak : Scenario.Weak) (c : Index.Call) : Nat → Nat → Act Move
  | 0, _ => return .finish (.error diskFull)
  | fuel + 1, below => do
    let w ← get
    match w.hurdleBefore id weak below with
    | none =>
      let now ← now
      runIndex id (·.begin now c)
    | some ⟨number, _, _, .fault times meanwhile⟩ =>
      setObstacle number (.fault (times - 1) meanwhile)
      match w.currentIntake? with
      | some intake => return failNext intake meanwhile
      | none => return .finish (.error diskFull)
    | some ⟨number, _, _, .gate _ isOpen _⟩ =>
      setObstacle number (.gate true isOpen (if isOpen then none else some me))
      -- The caller waits at the gate before anything of its call is done.
      if isOpen then passHurdles me id weak c fuel number
      else return .blockIn (.gate id number weak c)

/-- Starts a call of an index. -/
def beginIndex (me id : Nat) (c : Index.Call) : Act Move := do
  let count := (← get).stage.hurdles.length
  match c with
  | .batch _ => passHurdles me id .batch c (count + 1) count
  | .remove _ => passHurdles me id .remove c (count + 1) count
  | c =>
    let now ← now
    runIndex id (·.begin now c)

/-- Goes on after a gate has opened. -/
def resumeGate (me id number : Nat) (weak : Scenario.Weak) (c : Index.Call) : Act Move :=
  passHurdles me id weak c (number + 1) number

def resumeIndex (id : Nat) (waiting : Index.Waiting) (o : Outcome) : Act Move :=
  match waiting with
  | .reading initial => runIndex id (·.loaded initial o.snapshot)
  | .queued after => runIndex id (·.lockTaken after)
  | .writing after => runIndex id (·.written after o.unit)
  | .draining => runIndex id (·.beginSave .drop)

def performReconciliation (sink : Sink) : Reconciliation.Effect → Act Unit
  | .log level text => writeLog level text
  | .progress current total message => showProgress sink current total message

def runReconciliation (index : Nat) (root : String) (filter : Filter) (sink : Sink)
    (work : Reconciliation.Work) : Act Move := do
  work.effects.forM (performReconciliation sink)
  match work.turn with
  | .done r => return .finish (r.map .reconciled)
  | .ask request waiting =>
    let frame := Frame.reconcile index root filter sink waiting
    match request with
    | .inventory =>
      return .call (.offload (((← get).disk.inventory filter root).map .inventory)) frame
    | .batch entries => return .call (.index index (.batch entries)) frame
    | .remove path => return .call (.index index (.remove path)) frame

def resumeReconciliation (index : Nat) (root : String) (filter : Filter) (sink : Sink)
    (waiting : Reconciliation.Waiting) (o : Outcome) : Act Move := do
  let indexed := ((← get).indexOf index).entries
  runReconciliation index root filter sink <|
    match waiting with
    | .scanning => Reconciliation.scanned indexed o.inventory
    | .storing run count gone => Reconciliation.stored indexed run count gone o.summary
    | .removing run path gone => Reconciliation.removed indexed run path gone o.count

/-- Ends the attachment of an intake to its watch. -/
def detachIntake (id : Nat) : Act Unit := do
  let w ← get
  let slot := w.intakeSlot id
  if let some watch := slot.watch then
    setWatch watch ((w.watchSlot watch).watch.off .event (.intake id))
    setIntakeSlot id { slot with watch := none }

/-- Attaches an intake to a watch, and to no other. -/
def attachIntake (id watch : Nat) : Act Unit := do
  detachIntake id
  let w ← get
  setWatch watch ((w.watchSlot watch).watch.on .event (.intake id))
  setIntakeSlot id { w.intakeSlot id with watch := some watch }

def performIntake (id : Nat) : Intake.Effect → Act Unit
  | .log level text => writeLog level text
  | .armQuiet ticket delay => arm delay (.quiet id ticket)
  | .armGather ticket delay => arm delay (.gather id ticket)
  | .disarm ticket => disarm fun a => a = .quiet id ticket || a = .gather id ticket
  | .startBatch ticket => discard (spawn (.batch id ticket) (.intake id (.batch ticket)))
  | .detach => detachIntake id

def intakeRequest (id : Nat) (r : Intake.Request) : Act Call := do
  let w ← get
  let slot := w.intakeSlot id
  match r with
  | .lookUp path => return .offload ((w.disk.entry path slot.intake.root).map fun e => .entry e)
  | .store entries => return .index slot.index (.batch entries)
  | .remove path => return .index slot.index (.remove path)
  | .batch ticket =>
    match w.taskOf (.batch id ticket) with
    | some task => return .join task
    | none => return .gather []

def runIntake (id : Nat) (work : Intake → Intake.Work) : Act Move := do
  let slot := (← get).intakeSlot id
  let stretch := work slot.intake
  setIntakeSlot id { slot with intake := stretch.state }
  stretch.effects.forM (performIntake id)
  match stretch.turn with
  | .done r => return .finish (r.map fun _ => .nothing)
  | .ask request waiting => return .call (← intakeRequest id request) (.intake id waiting)

def changeIntake (id : Nat) (change : Intake → Intake × List Intake.Effect) : Act Unit := do
  let slot := (← get).intakeSlot id
  let (ix, effects) := change slot.intake
  setIntakeSlot id { slot with intake := ix }
  effects.forM (performIntake id)

def resumeIntake (id : Nat) (waiting : Intake.Waiting) (o : Outcome) : Act Move :=
  match waiting with
  | .lookingUp ticket kind path => runIntake id (·.lookedUp ticket kind path o.entry)
  | .storing stores round => runIntake id (·.stored stores round o.unit)
  | .removing current round => runIntake id (·.removed current round o.unit)
  | .joining purpose =>
    match o with
    | .error f => return .finish (.error f)
    | .ok _ => runIntake id (·.flushNow purpose)

end LiveIndex.World
