import LiveIndex.World.Play

/-! The loop. In each round the timers that are due join what is ready, and what is ready then gets
its turn once; what it makes ready waits for the next round. -/

namespace LiveIndex.World

/-- Starts a call on behalf of a task. -/
def beginCall (me : Nat) : Call → Act Move
  | .index id c => beginIndex me id c
  | .reconcile index root filter sink =>
    runReconciliation index root filter sink Reconciliation.begin
  | .intake id c => runIntake id (·.begin c)
  | .watch id c => runWatch id (·.begin c)
  | .startBackend watch paths => beginBackend watch paths
  | .stopBackend watch => endBackend watch
  | .feed id c => runFeed id (·.begin c)
  | .keeper id c => beginKeeper id c
  | .launch index settings => beginLaunch index settings
  | .tools c => beginTools c
  | .command work => beginCommand work
  | .step s => beginStep s
  | .handle h p => beginHandle h p
  | .offload o => beginOffload me o
  | .sleep ms => beginSleep me ms
  | .lock l => beginLock me l
  | .join task => beginJoin me task
  | .gather tasks => beginGather me tasks
  | .listen feed ticket => beginListen me feed ticket

/-- Goes on in a frame whose inner call has ended. -/
def resumeFrame (me : Nat) (f : Frame) (o : Outcome) : Act Move := do
  match f with
  | .index id waiting => resumeIndex id waiting o
  | .gate id number weak c => resumeGate me id number weak c
  | .failing intake rest =>
    match o with
    | .error f => return .finish (.error f)
    | .ok _ => return failNext intake rest
  | .reconcile index root filter sink waiting =>
    resumeReconciliation index root filter sink waiting o
  | .intake id waiting => resumeIntake id waiting o
  | .watch id waiting => resumeWatch id waiting o
  | .feed id waiting => resumeFeed id waiting o
  | .keeper id waiting => resumeKeeper id waiting o
  | .launched watch intake =>
    match o with
    | .error f => return .finish (.error f)
    | .ok _ => return .finish (.ok (.launched watch intake o.flag))
  | .tools waiting => resumeTools waiting o
  | .command waiting => resumeCommand waiting o
  | .record label p fails => resumeRecord label p fails
  | .lock l => resumeLock me l
  | .listen feed ticket => beginListen me feed ticket
  | .served => stepServed o
  | .all tasks => return .finish (.ok (.each ((← get).outcomesOf tasks)))
  | .seq rest done =>
    match o with
    | .error f => return .finish (.error f)
    | .ok _ => return nextStep (done ++ [o]) rest

/-- Leaves a task where it waits. -/
def park (id : Nat) (stack : List Frame) : Act Unit :=
  modify fun w => { w with tasks := w.tasks.modify id fun t => { t with stack } }

/-- Goes on with a task until it waits or ends. The fuel bounds the number of calls. -/
def proceed : Nat → Nat → List Frame → Move → Act Unit
  | 0, _, _, _ => pure ()
  | fuel + 1, id, stack, move =>
    match move with
    | .block => park id stack
    | .blockIn f => park id (f :: stack)
    | .call c f => do proceed fuel id (f :: stack) (← beginCall id c)
    | .pass c => do proceed fuel id stack (← beginCall id c)
    | .finish o =>
      match stack with
      | [] => endTask id o
      | f :: rest => do proceed fuel id rest (← resumeFrame id f o)

/-- The most calls that one task makes without waiting. -/
def maxCalls : Nat := 1000000

def wakeTask (id : Nat) (o : Outcome) : Act Unit := do
  match (← get).tasks[id]? with
  | none => pure ()
  | some t => proceed maxCalls id t.stack (.finish o)

def ring : Alarm → Act Unit
  | .wake task => enqueue (.resume task silent)
  | .save id ticket => changeIndex id (·.saveDue ticket)
  | .quiet id _ => changeIntake id (·.quiet)
  | .gather id _ => changeIntake id (·.gathered)
  | .fire id _ path => changeWatch id (·.fire path)

/-- A task is over that somebody keeps track of. -/
def taskOver (id : Nat) : Act Unit := do
  match (← get).tasks[id]? with
  | none => pure ()
  | some t =>
    match t.tag with
    | .save index ticket => changeIndex index fun s => (s.saveOver ticket, [])
    | .job watch ticket =>
      changeWatch watch (·.jobOver ticket (t.outcome.getD silent).unit)
    | .run feed ticket => changeFeed feed fun f => (f.runOver ticket, [])
    | _ => pure ()

/-- Does one thing that is ready. -/
def handle : Ready → Act Unit
  | .nothing => pure ()
  | .begin task c => do proceed maxCalls task [] (← beginCall task c)
  | .resume task o => wakeTask task o
  | .alarm a => ring a
  | .ended task => taskOver task
  | .wake (.task waiter) task => do
    match (← get).tasks[task]? with
    | none => pure ()
    | some t => wakeTask waiter (t.outcome.getD silent)
  | .wake (.group group) _ => groupMember group

/-- Inserts a timer behind all that are due no later. -/
def insertTimer (t : Timer) : List Timer → List Timer
  | [] => [t]
  | u :: rest => if t.due < u.due then t :: u :: rest else u :: insertTimer t rest

/-- The timers in the order in which they are due. -/
def sortTimers (ts : List Timer) : List Timer :=
  ts.foldl (fun sorted t => insertTimer t sorted) []

/-- Makes the timers that are due ready, in order. -/
def collectDue : Act Unit :=
  modify fun w =>
    let isDue (t : Timer) : Bool := t.due ≤ w.clock
    { w with
      timers := w.timers.filter fun t => !isDue t
      ready := w.ready ++ (sortTimers (w.timers.filter isDue)).map fun t => .alarm t.alarm }

/-- Does so many of the things that are ready. -/
def handleSome : Nat → Act Unit
  | 0 => pure ()
  | n + 1 => do
    let w ← get
    match w.ready with
    | [] => pure ()
    | r :: rest =>
      set { w with ready := rest }
      handle r
      handleSome n

/-- One round: what is ready now gets its turn. -/
def round : Act Unit := do
  collectDue
  handleSome (← get).ready.length

def isOver (w : World) (task : Nat) : Bool :=
  (w.tasks[task]?).all fun t => t.outcome.isSome

/-- Whether there is anything to do without time passing. -/
def isBusy (w : World) : Bool :=
  !w.ready.isEmpty || w.timers.any fun t => t.due ≤ w.clock

/-- The time at which the next timer is due. -/
def nextDue (w : World) : Option Int :=
  (w.timers.map Timer.due).min?

/-- Runs until a task is over and nothing is left to do without time passing. The fuel bounds the
number of rounds. -/
def runUntil (task : Nat) : Nat → Act Unit
  | 0 => pure ()
  | fuel + 1 => do
    let w ← get
    if w.isBusy then
      round
      runUntil task fuel
    else if w.isOver task then pure ()
    else
      -- Nothing is ready, so time passes until the next timer is due.
      match w.nextDue with
      | none => pure ()
      | some due =>
        set { w with clock := due }
        runUntil task fuel

/-- The most rounds of one run. -/
def maxRounds : Nat := 1000000

/-- Runs a call to its end. -/
def runCall (c : Call) : Act Outcome := do
  let task ← spawn .plain c
  runUntil task maxRounds
  return (((← get).tasks[task]?).bind Task.outcome).getD silent

end LiveIndex.World
