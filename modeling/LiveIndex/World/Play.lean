import LiveIndex.World.Serve

namespace LiveIndex.World

def modifyStage (f : Stage → Stage) : Act Unit :=
  modify fun w => { w with stage := f w.stage }

def watchStatus (w : World) (id : Nat) : WatchStatus :=
  let slot := w.watchSlot id
  { running := slot.watch.running
    ready := slot.watch.ready
    root := slot.watch.root
    paths := slot.watch.watchedPaths
    pending := slot.watch.pending.size
    knownDirs := slot.watch.knownDirs.length
    isFeed :=
      match slot.backend with
      | .feed _ => true
      | _ => false }

def keeperStatus (w : World) (k : Keeper) : KeeperStatus where
  initialized := k.initialized
  hasIndex := w.disk.exists? k.indexPath
  watching := w.isWatching k
  watch := k.watch.map w.watchStatus

def keeperView (k : Keeper) : KeeperView :=
  ⟨k.root, k.indexPath, k.extensions, k.excluded⟩

/-- The listener of a label, made on first use. -/
def listenerOf (label : String) (fails : Bool) : Act Listener := do
  match (← get).stage.listeners.find? (·.1 = label) with
  | some (_, l) => return l
  | none =>
    let l := Listener.recorder label fails
    modifyStage fun s => { s with listeners := s.listeners ++ [(label, l)] }
    return l

/-- The handler of a label, made on first use. -/
def handlerOf (label : String) (style : Watch.Style) (fails : Bool) : Act Watch.Handler := do
  match (← get).stage.handlers.find? (·.1 = label) with
  | some (_, h) => return h
  | none =>
    let h := Watch.Handler.recorder label style fails
    modifyStage fun s => { s with handlers := s.handlers ++ [(label, h)] }
    return h

def finishWith (a : Answer) : Act Move :=
  return .finish (.ok a)

/-- Opens all gates and lets those that wait go on. -/
def openGates : Act Unit := do
  let w ← get
  for h in w.stage.hurdles.reverse do
    match h.obstacle with
    | .gate entered _ waiting =>
      setObstacle h.number (.gate entered true none)
      if let some task := waiting then enqueue (.resume task silent)
    | .fault .. => pure ()

/-- Puts a hurdle before an operation of an index. -/
def addHurdle (index : Nat) (weak : Scenario.Weak) (o : Obstacle) : Act Unit :=
  modifyStage fun s => { s with hurdles := ⟨s.hurdles.length, index, weak, o⟩ :: s.hurdles }

def putNodes (d : Disk) (nodes : List Scenario.Node) : Disk :=
  nodes.foldl (fun d n => (d.put n.path n.tree).mark n.path n.mark) d

/-- Registers a handler with the current watch. -/
def registerHandler (topic label : String) (style : Watch.Style) (fails : Bool) :
    Act Move := do
  let h ← handlerOf label style fails
  match Watch.Topic.ofWord? topic with
  | none => return .finish (.error (.unknownEvent (Text.quoted topic)))
  | some t =>
    if let some id := (← get).stage.watch then changeWatch id fun w => (w.on t h, [])
    finishWith .nothing

def stageWatch (root : String) (filter : Filter) (debounce : Int) (ignoreInitial : Bool)
    (source : Scenario.Source) : Act Move := do
  let backend ←
    match source with
    | .scripted failure => pure (Backend.scripted failure)
    | .feed options => pure (.feed (← newFeed options))
  let id ← newWatch root filter debounce ignoreInitial backend
  modifyStage fun s => { s with watch := some id }
  finishWith .nothing

/-- Makes the index of a scenario, and loads what is stored of it if it has a root. -/
def stageIndex (options : Index.Options) (root path : Option String) : Act Move := do
  let id ← newIndex options
  modifyStage fun s => { s with index := some id }
  match root with
  | none => finishWith .nothing
  | some root => return .pass (.index id (.prepare root path))

def stageKeeper (id : Except Failure Nat) (isInstance : Bool) : Act Move := do
  match id with
  | .error f => return .finish (.error f)
  | .ok id =>
    modifyStage fun s => { s with keeper := some id }
    finishWith (.keeper (keeperView ((← get).keeperOf id)) isInstance)

def diskStep (s : Scenario.Step) : Act Move := do
  let w ← get
  match s with
  | .put nodes =>
    set { w with disk := putNodes w.disk nodes }
    finishWith .nothing
  | .rm path =>
    set { w with disk := w.disk.remove path }
    finishWith .nothing
  | .read path => finishWith (.text ((w.disk.read path).toOption.bind Content.text?))
  | .list path =>
    finishWith <| .names <|
      match w.disk.find path with
      | .ok (.dir children) => some (Text.sorted (children.map Prod.fst))
      | _ => none
  | .scan root filter directories =>
    return .finish ((w.disk.scan filter directories root).map .entries)
  | .inventory root filter => return .finish ((w.disk.inventory filter root).map .inventory)
  | .stat path root => return .finish ((w.disk.entry path root).map fun e => .entry e)
  | .findRoot path => return .finish ((w.disk.contentRoot w.env.home path).map .path)
  | .condense changes => finishWith (.sightings (Sighting.condense w.disk changes))
  | .loadSnapshot path =>
    return .finish ((w.disk.loadSnapshot (Path.tidy path)).map .snapshot)
  | .storeSnapshot path snapshot =>
    let (disk, result) := w.disk.storeSnapshot (Path.tidy path) snapshot
    set { w with disk }
    return .finish (result.map fun _ => .nothing)
  | _ => finishWith .nothing

def indexStep (s : Scenario.Step) : Act Move := do
  let w ← get
  let id := w.currentIndex?.getD 0
  let index := w.indexOf id
  match s with
  | .index c => return .pass (.index id c)
  | .add e timed =>
    let now ← now
    changeIndex id fun s => s.add now timed e
    finishWith .nothing
  | .clear =>
    let now ← now
    changeIndex id fun s => (s.clear now, [])
    finishWith .nothing
  | .search text exact limit =>
    let (s, hits) := index.search text exact limit
    setIndex id s
    finishWith (.hits hits)
  | .query text limit => finishWith (.found (← queryIndex id text limit))
  | .get path => finishWith (.entry (index.entries.get? path))
  | .entries => finishWith (.entries index.entries.values)
  | .verify =>
    let (holds, effects) := index.verify
    effects.forM (performIndex id)
    finishWith (.flag holds)
  | .drift n =>
    changeIndex id fun s => ({ s with stats := { s.stats with files := s.stats.files + n } }, [])
    finishWith .nothing
  | .listen label fails =>
    let l ← listenerOf label fails
    changeIndex id fun s => (s.listen l, [])
    finishWith .nothing
  | .unlisten label =>
    if let some (_, l) := w.stage.listeners.find? (·.1 = label) then
      changeIndex id fun s => (s.unlisten l, [])
    finishWith .nothing
  | .reconcile root filter sink => return .pass (.reconcile id root filter sink)
  | .fail weak times meanwhile =>
    addHurdle id weak (.fault times meanwhile)
    finishWith .nothing
  | .hold =>
    addHurdle id .batch (.gate false false none)
    finishWith .nothing
  | .release =>
    openGates
    finishWith .nothing
  | .newIntake root options =>
    let intake ← newIntake root options id
    modifyStage fun s => { s with intake := some intake }
    finishWith .nothing
  | _ => finishWith .nothing

def watchStep (id : Nat) (s : Scenario.Step) : Act Move := do
  match s with
  | .watch c => return .pass (.watch id c)
  | .sightings changes =>
    giveChanges id changes
    finishWith .nothing
  | .fatal message =>
    changeWatch id (·.fatal (.crash message))
    finishWith .nothing
  | .addPath path =>
    changeWatch id (·.addPath path)
    finishWith .nothing
  | .unwatchPath path =>
    changeWatch id (·.unwatchPath path)
    finishWith .nothing
  | .watchStatus => finishWith (.watchStatus ((← get).watchStatus id))
  | .off topic label =>
    if let some t := Watch.Topic.ofWord? topic then
      if let some (_, h) := (← get).stage.handlers.find? (·.1 = label) then
        changeWatch id fun w => (w.off t h, [])
    finishWith .nothing
  | .attach =>
    if let some intake := (← get).currentIntake? then attachIntake intake id
    finishWith .nothing
  | _ => finishWith .nothing

def feedStep (id : Nat) (s : Scenario.Step) : Act Move := do
  match s with
  | .startFeed paths =>
    changeFeed id (·.start .record paths)
    finishWith .nothing
  | .stopFeed => return .pass (.feed id .stop)
  | .addFeedPath path =>
    changeFeed id (·.addPath path)
    finishWith .nothing
  | .unwatchFeedPath path =>
    changeFeed id (·.unwatchPath path)
    finishWith .nothing
  | .feedRunning => finishWith (.flag ((← get).feedOf id).isRunning)
  | _ => finishWith .nothing

def keeperStep (id : Nat) (s : Scenario.Step) : Act Move := do
  match s with
  | .keeper c => return .pass (.keeper id c)
  | .startWatching label =>
    match label with
    | none => return .pass (.keeper id (.startWatching none))
    | some label =>
      let l ← listenerOf label false
      return .pass (.keeper id (.startWatching (some l)))
  | .keeperSearch text exact limit => finishWith (.hits (← searchKeeper id text exact limit))
  | .keeperQuery text limit => finishWith (.selected (← queryKeeper id text limit))
  | .keeperStats =>
    let w ← get
    finishWith (.stats (w.indexOf (w.keeperOf id).index).stats)
  | .keeperStatus =>
    let w ← get
    finishWith (.keeperStatus (w.keeperStatus (w.keeperOf id)))
  | _ => finishWith .nothing

/-- Goes on with steps that are taken one after another. -/
def nextStep (done : List Outcome) : List Scenario.Step → Move
  | [] => .finish (.ok (.each done))
  | s :: rest => .call (.step s) (.seq rest done)

def beginStep (s : Scenario.Step) : Act Move := do
  let w ← get
  match s with
  | .invalid f => return .finish (.error f)
  | .put .. | .rm .. | .read .. | .list .. | .scan .. | .inventory .. | .stat .. | .findRoot ..
  | .condense .. | .loadSnapshot .. | .storeSnapshot .. => diskStep s
  | .advance ms => return .pass (.sleep ms)
  | .all steps =>
    let tasks ← steps.mapM fun s => spawn .plain (.step s)
    return .call (.gather tasks) (.all tasks)
  | .seq steps => return nextStep [] steps
  | .background name s =>
    let task ← spawn .plain (.step s)
    modifyStage fun st => { st with tasks := (name, task) :: st.tasks }
    finishWith .nothing
  | .join name =>
    match w.stage.tasks.find? (·.1 = name) with
    | some (_, task) => return .pass (.join task)
    | none => finishWith .nothing
  | .failBackend message =>
    modifyStage fun s => { s with brokenBackend := some message }
    finishWith .nothing
  | .newIndex options root path => stageIndex options root path
  | .intake c =>
    match w.currentIntake? with
    | some id => return .pass (.intake id c)
    | none => finishWith .nothing
  | .detach =>
    if let some id := w.currentIntake? then detachIntake id
    finishWith .nothing
  | .newWatch root filter debounce ignoreInitial source =>
    stageWatch root filter debounce ignoreInitial source
  | .on topic label style fails => registerHandler topic label style fails
  | .off .. | .attach | .watch _ | .sightings _ | .fatal _ | .addPath _ | .unwatchPath _
  | .watchStatus => watchStep (w.stage.watch.getD 0) s
  | .push item =>
    push item
    finishWith .nothing
  | .newFeed options =>
    let id ← newFeed options
    modifyStage fun s => { s with feed := some id }
    finishWith .nothing
  | .startFeed _ | .stopFeed | .addFeedPath _ | .unwatchFeedPath _ | .feedRunning =>
    feedStep (w.stage.feed.getD 0) s
  | .newKeeper options => do
    stageKeeper (← newKeeper options) false
  | .sharedKeeper => do
    stageKeeper (← sharedKeeperId) true
  | .keeper _ | .startWatching _ | .keeperSearch .. | .keeperQuery .. | .keeperStats
  | .keeperStatus => keeperStep (w.stage.keeper.getD 0) s
  | .tools c => return .call (.tools c) .served
  | s => indexStep s

/-- A step about the server has succeeded: from now on steps concern its keeper. -/
def stepServed (o : Outcome) : Act Move := do
  if o.toOption.isSome then
    modify fun w => { w with stage := { w.stage with keeper := w.sharedKeeper } }
  return .finish o

/-- The outcomes of tasks that are over. -/
def outcomesOf (w : World) (tasks : List Nat) : List Outcome :=
  tasks.map fun id => ((w.tasks[id]?).bind Task.outcome).getD silent

end LiveIndex.World
