import LiveIndex.World.Index

/-! Watches and feeds at work. What the system tells the latest run of a feed comes through a
channel. -/

namespace LiveIndex.World

/-- Has the listener of a channel look again. -/
def wakeListener (i : Nat) : Act Unit := do
  let w ← get
  match w.channels[i]? with
  | some ch =>
    if let some task := ch.listener then
      set { w with channels := w.channels.setIfInBounds i { ch with listener := none } }
      enqueue (.resume task silent)
  | none => pure ()

/-- Puts something into the channel of the latest run. -/
def push (item : Feed.Item) : Act Unit := do
  let w ← get
  if w.channels.isEmpty then pure ()
  else
    let i := w.channels.size - 1
    set { w with
      channels := w.channels.modify i fun ch => { ch with items := ch.items ++ [item] } }
    wakeListener i

def channelOf (w : World) (feed ticket : Nat) : Option Nat :=
  w.channels.findIdx? fun ch => ch.feed = feed && ch.ticket = ticket

/-- Takes the next item of a channel, or waits for it. What was put in before the end comes before
the end. -/
def beginListen (me feed ticket : Nat) : Act Move := do
  let w ← get
  let some i := w.channelOf feed ticket | return .finish (.ok (.heard .closed))
  let some ch := w.channels[i]? | return .finish (.ok (.heard .closed))
  match ch.items with
  | item :: rest =>
    set { w with channels := w.channels.setIfInBounds i { ch with items := rest } }
    return .finish (.ok (.heard item))
  | [] =>
    if ch.closed then return .finish (.ok (.heard .closed))
    else
      set { w with channels := w.channels.setIfInBounds i { ch with listener := some me } }
      return .blockIn (.listen feed ticket)

/-- What a feed does by itself: its runs start, subscribe and are told to stop. -/
def performFeedRun (id : Nat) : Feed.Effect → Act Unit
  | .startRun ticket => discard (spawn (.run id ticket) (.feed id (.run ticket)))
  | .signal ticket => do
    let w ← get
    if let some i := w.channelOf id ticket then
      set { w with channels := w.channels.modify i fun ch => { ch with closed := true } }
      wakeListener i
  | .subscribe ticket paths => do
    let w ← get
    let f := w.feedOf id
    record (.subscribed paths f.options)
    modify fun w =>
      { w with channels := w.channels.push ⟨id, ticket, [], ticket ∈ f.stopped, none⟩ }
  | .changes .. => pure ()
  | .fatal .. => pure ()

/-- Does work of a feed that takes no time and reports nothing. -/
def changeFeed (id : Nat) (change : Feed → Feed × List Feed.Effect) : Act Unit := do
  let (f, effects) := change ((← get).feedOf id)
  setFeed id f
  effects.forM (performFeedRun id)

/-- The call that a job of a watch stands for. -/
def jobCall (id : Nat) : Watch.Job → Call
  | .handle h p => .handle h p
  | .expand path => .watch id (.expand path)

def performWatch (id : Nat) : Watch.Effect → Act Unit
  | .log level text => writeLog level text
  | .note label p => record (.handler label p)
  | .arm ticket path delay => arm delay (.fire id ticket path)
  | .disarm ticket =>
    disarm fun
      | .fire watch t _ => watch = id && t = ticket
      | _ => false
  | .start ticket job => discard (spawn (.job id ticket) (jobCall id job))
  | .watch path => do
    match ((← get).watchSlot id).backend with
    | .scripted _ => record (.backendAdd path)
    | .feed f => changeFeed f (·.addPath path)
    | .broken _ => pure ()
  | .unwatch path => do
    match ((← get).watchSlot id).backend with
    | .scripted _ => record (.backendUnwatch path)
    | .feed f => changeFeed f (·.unwatchPath path)
    | .broken _ => pure ()

def changeWatch (id : Nat) (change : Watch → Watch × List Watch.Effect) : Act Unit := do
  let (watch, effects) := change ((← get).watchSlot id).watch
  setWatch id watch
  effects.forM (performWatch id)

def giveChanges (id : Nat) (changes : List Sighting) : Act Unit := do
  let now ← now
  let disk := (← get).disk
  changeWatch id (·.takeChanges disk now changes)

def watchRequest (id : Nat) : Watch.Request → Act Call
  | .walk path => do
    let w ← get
    let filter := (w.watchSlot id).watch.filter
    return .offload ((w.disk.scan filter true (Path.tidy path)).map .entries)
  | .startBackend paths => return .startBackend id paths
  | .stopBackend => return .stopBackend id
  | .jobs tickets => do
    return .gather ((← get).tasksOf (tickets.map fun ticket => .job id ticket))

def runWatch (id : Nat) (work : Watch → Watch.Work) : Act Move := do
  let stretch := work ((← get).watchSlot id).watch
  setWatch id stretch.state
  stretch.effects.forM (performWatch id)
  match stretch.turn with
  | .done r => return .finish (r.map fun started => (started.map Answer.flag).getD .nothing)
  | .ask request waiting => return .call (← watchRequest id request) (.watch id waiting)

def resumeWatch (id : Nat) (waiting : Watch.Waiting) (o : Outcome) : Act Move := do
  let now ← now
  match waiting with
  | .learning => runWatch id (·.learned o.entries)
  | .starting initial => runWatch id (·.started now initial o.unit)
  | .stopping wasRunning =>
    match o with
    | .error f => return .finish (.error f)
    | .ok _ => runWatch id (·.stopped wasRunning)
  | .settling => runWatch id (·.settle [])
  | .expanding => runWatch id (·.expanded now o.entries)

/-- Starts what a watch gets its changes from. -/
def beginBackend (watch : Nat) (paths : List String) : Act Move := do
  match ((← get).watchSlot watch).backend with
  | .scripted (some message) => return .finish (.error (.device message))
  | .broken message => return .finish (.error (.device message))
  | .scripted none =>
    record (.backendStart paths)
    return .finish silent
  | .feed f =>
    changeFeed f (·.start (.watch watch) paths)
    return .finish silent

def endBackend (watch : Nat) : Act Move := do
  match ((← get).watchSlot watch).backend with
  | .scripted _ =>
    record .backendStop
    return .finish silent
  | .broken _ => return .finish silent
  | .feed f => return .pass (.feed f .stop)

def performFeed (id : Nat) : Feed.Effect → Act Unit
  | .changes (.watch watch) cs => giveChanges watch cs
  | .changes .record cs => record (.changes cs)
  | .fatal (.watch watch) f => changeWatch watch (·.fatal f)
  | .fatal .record f => record (.fatal f)
  | effect => performFeedRun id effect

def runFeed (id : Nat) (work : Feed → Feed.Work) : Act Move := do
  let stretch := work ((← get).feedOf id)
  setFeed id stretch.state
  stretch.effects.forM (performFeed id)
  match stretch.turn with
  | .done r => return .finish (r.map fun _ => .nothing)
  | .ask (.next ticket) waiting => return .call (.listen id ticket) (.feed id waiting)
  | .ask (.runs tickets) waiting =>
    let tasks := (← get).tasksOf (tickets.map fun ticket => .run id ticket)
    return .call (.gather tasks) (.feed id waiting)

def resumeFeed (id : Nat) (waiting : Feed.Waiting) (o : Outcome) : Act Move := do
  match waiting, o with
  | .listening ticket, .ok (.heard item) =>
    let disk := (← get).disk
    runFeed id fun f => f.heard disk ticket item
  | _, _ => return .finish silent

/-- Gives an event to a handler that takes its time. -/
def beginHandle (h : Watch.Handler) (p : Watch.Payload) : Act Move := do
  match h, p with
  | .intake id, .event e =>
    if e.isDirectory then return .pass (.intake id (.directoryChange e.kind.word e.path))
    else return .pass (.intake id (.change e.kind.word e.path))
  | .recorder label (.delayed delay) fails, p =>
    return .call (.sleep delay) (.record label p fails)
  | .recorder label .prompt fails, p => return .call (.gather []) (.record label p fails)
  | .intake _, _ => return .finish silent

/-- A handler has taken its time. -/
def resumeRecord (label : String) (p : Watch.Payload) (fails : Bool) : Act Move := do
  record (.handler label p)
  return .finish (if fails then .error Watch.recorderFailure else silent)

end LiveIndex.World
