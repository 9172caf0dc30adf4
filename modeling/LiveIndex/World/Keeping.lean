import LiveIndex.World.Watch

namespace LiveIndex.World

def newIndex (options : Index.Options) : Act Nat := do
  let w ← get
  set { w with indexes := w.indexes.push (.create options) }
  return w.indexes.size

def newIntake (root : String) (options : Intake.Options) (index : Nat) : Act Nat := do
  let w ← get
  set { w with
    intakes := w.intakes.push ⟨.create (Path.tidy root) options, index, none⟩ }
  return w.intakes.size

def newFeed (options : Feed.Options) : Act Nat := do
  let w ← get
  set { w with feeds := w.feeds.push (.create options) }
  return w.feeds.size

def newWatch (root : String) (filter : Filter) (debounce : Int) (ignoreInitial : Bool)
    (backend : Backend) : Act Nat := do
  let w ← get
  let watch := Watch.create (Path.tidy root) filter debounce ignoreInitial
  set { w with watches := w.watches.push ⟨watch, backend⟩ }
  return w.watches.size

def newKeeper (o : Keeper.Options) : Act (Except Failure Nat) := do
  let w ← get
  match Keeper.create w.env w.disk o w.indexes.size with
  | .error f => return .error f
  | .ok (k, limit) =>
    discard (newIndex { Index.Options.default with defaultLimit := limit })
    modify fun w => { w with keepers := w.keepers.push k }
    return .ok w.keepers.size

/-- The keeper that is shared, made on first use. -/
def sharedKeeperId : Act (Except Failure Nat) := do
  match (← get).sharedKeeper with
  | some id => return .ok id
  | none =>
    match ← newKeeper .none with
    | .error f => return .error f
    | .ok id =>
      modify fun w => { w with sharedKeeper := some id }
      return .ok id

/-- Whether a keeper's watch runs. -/
def isWatching (w : World) (k : Keeper) : Bool :=
  match k.watch with
  | some id => (w.watchSlot id).watch.running
  | none => false

/-- Makes a watch and an intake attached to it, and starts the watch. -/
def beginLaunch (index : Nat) (l : Keeper.Launch) : Act Move := do
  let backend ←
    match (← get).stage.brokenBackend with
    | some message => pure (Backend.broken message)
    | none =>
      let feed ← newFeed { Feed.Options.default with forcePolling := l.forcePolling }
      pure (.feed feed)
  let watch ← newWatch l.root l.filter l.watchDebounce true backend
  let intake ← newIntake l.root l.intake index
  attachIntake intake watch
  return .call (.watch watch .start) (.launched watch intake)

def performKeeper (id : Nat) : Keeper.Effect → Act Unit
  | .progress sink current total message => showProgress sink current total message
  | .clear => do
    let now ← now
    let k := (← get).keeperOf id
    changeIndex k.index fun s => (s.clear now, [])
  | .listen l => do
    let k := (← get).keeperOf id
    changeIndex k.index fun s => (s.listen l, [])
  | .unlisten l => do
    let k := (← get).keeperOf id
    changeIndex k.index fun s => (s.unlisten l, [])
  | .unlock => unlock (.keeper id)

def keeperRequest (id : Nat) (r : Keeper.Request) : Act Call := do
  let w ← get
  let k := w.keeperOf id
  match r with
  | .lock => return .lock (.keeper id)
  | .load root path => return .index k.index (.prepare root (some path))
  | .scan sink => return .keeper id (.scan sink)
  | .reconcile sink => return .reconcile k.index k.root k.filter sink
  | .walk => return .offload ((w.disk.scan k.filter true k.root).map .entries)
  | .store entries => return .index k.index (.batch entries)
  | .save => return .index k.index .save
  | .lookUp path => return .offload ((w.disk.entry path k.root).map fun e => .entry e)
  | .remove path => return .index k.index (.remove path)
  | .launch settings => return .launch k.index settings
  | .stopWatching watch => return .watch watch .stop
  | .stopIntake intake => return .intake intake .destroy
  | .stopIndex => return .index k.index .destroy

def keeperAnswer : Keeper.Answer → Answer
  | .nothing => .nothing
  | .flag b => .flag b
  | .count n => .count n
  | .summary s => .summary s
  | .entry e => .entry e

def runKeeper (id : Nat) (work : Keeper → Keeper.Work) : Act Move := do
  let stretch := work ((← get).keeperOf id)
  setKeeper id stretch.state
  stretch.effects.forM (performKeeper id)
  match stretch.turn with
  | .done r => return .finish (r.map keeperAnswer)
  | .ask request waiting => return .call (← keeperRequest id request) (.keeper id waiting)

def beginKeeper (id : Nat) (c : Keeper.Call) : Act Move := do
  let w ← get
  runKeeper id fun k => k.begin w.env (w.isWatching k) c

def resumeKeeper (id : Nat) (waiting : Keeper.Waiting) (o : Outcome) : Act Move := do
  let w ← get
  let size := (w.indexOf (w.keeperOf id).index).entries.size
  runKeeper id fun k =>
    match waiting with
    | .entering reconcile => k.entered w.env w.disk reconcile
    | .loading reconcile => k.loaded size reconcile o.unit
    | .building => k.built o.unit
    | .walking sink => k.walked sink o.entries
    | .storing sink n => k.stored sink n o.summary
    | .reconciling => k.reconciled o.count
    | .rescanning => k.rescanned o.unit
    | .resaving => k.resaved size o.unit
    | .lookingUp path => k.lookedUp path o.entry
    | .forgetting => k.refreshed none o.unit
    | .refreshing e => k.refreshed (some e) o.unit
    | .launching l => k.launched l o.launched
    | .discarding => k.discarded o.unit
    | .stoppingWatch after => k.watchStopped after o.unit
    | .stoppingIntake after => k.intakeStopped after o.unit
    | .stoppingIndex => k.indexStopped o.unit

def searchKeeper (id : Nat) (text : String) (exact : Bool) (limit : Option Int) :
    Act (List Matching.Hit) := do
  let index := ((← get).keeperOf id).index
  let (s, hits) := ((← get).indexOf index).search text exact limit
  setIndex index s
  return hits

def queryIndex (index : Nat) (text : String) (limit : Option Int) : Act Index.Found := do
  let (s, warning, found) := ((← get).indexOf index).query text limit
  setIndex index s
  if let some text := warning then writeLog .warning text
  return found

def queryKeeper (id : Nat) (text : String) (limit : Option Int) : Act Index.Found := do
  queryIndex ((← get).keeperOf id).index text limit

end LiveIndex.World
