import LiveIndex.World.Keeping

namespace LiveIndex.World

/-- The state of a keeper's index and of what keeps it current. -/
def toolsStatus (w : World) (k : Keeper) : Tools.Status :=
  let s := w.indexOf k.index
  let intake := k.intake.map fun id => (w.intakeSlot id).intake
  { root := k.root
    indexPath := k.indexPath
    stats := s.stats
    version := s.version
    watching := w.isWatching k
    pending := (intake.map fun ix => ix.queue.size).getD 0
    missed := (intake.map Intake.missed).getD 0 }

/-- Runs a tool on an index that is ready. -/
def runTool (keeper : Nat) (c : Tools.Call) : Act Move := do
  let answer (a : Tools.Answer) : Move := .finish (.ok (.tools a))
  match c with
  | .search query true limit =>
    return answer (.response (.literal query (← searchKeeper keeper query true (some limit))))
  | .search query false limit =>
    return answer (.response (.ofFound (← queryKeeper keeper query (some limit))))
  | .stats => do
    let w ← get
    return answer (.status (w.toolsStatus (w.keeperOf keeper)))
  | .refresh => return .call (.keeper keeper (.refresh .none)) (.tools .rebuilding)
  | .refreshFile path =>
    return .call (.keeper keeper (.refreshFile path)) (.tools .rereading)
  | .enter _ | .exit => return .finish silent

/-- Starts a server: the index is loaded first. -/
def beginEnter (watch : Bool) : Act Move := do
  match ← sharedKeeperId with
  | .error f => return .finish (.error f)
  | .ok keeper =>
    printError "Loading index...\n"
    return .call (.keeper keeper (.prepare true)) (.tools (.loading keeper watch))

def beginTools (c : Tools.Call) : Act Move := do
  match c with
  | .enter watch => beginEnter watch
  | .exit =>
    match (← get).serving with
    | none => return .finish silent
    | some keeper => return .call (.keeper keeper .destroy) (.tools .leaving)
  | c =>
    match ← sharedKeeperId with
    | .error f => return .finish (.error f)
    | .ok keeper =>
      return .call (.keeper keeper (.prepare true)) (.tools (.preparing keeper c))

/-- Goes on once the index is loaded: watching starts if it is wanted. -/
def indexReady (keeper : Nat) (watch : Bool) : Act Move := do
  let w ← get
  if watch && (w.keeperOf keeper).initialized then
    return .call (.keeper keeper (.startWatching (some .report))) (.tools (.watching keeper))
  else
    set { w with serving := some keeper }
    return .finish silent

def resumeTools (waiting : Tools.Waiting) (o : Outcome) : Act Move := do
  match waiting, o with
  | .loading keeper watch, .ok _ =>
    let w ← get
    printError (Tools.readyText (w.indexOf (w.keeperOf keeper).index).stats)
    indexReady keeper watch
  | .loading keeper watch, .error f =>
    if f.family = .system then
      printError ("Warning: Index unavailable: " ++ f.message ++ "\n")
      indexReady keeper watch
    else return .finish (.error f)
  | .preparing keeper c, .ok _ => runTool keeper c
  | .rebuilding, .ok _ =>
    match o.count with
    | .ok n => return .finish (.ok (.tools (.rebuilt n)))
    | .error f => return .finish (.error f)
  | .rereading, .ok (.entry e) =>
    return .finish (.ok (.tools (.file (e.map Tools.Hit.ofEntry))))
  | .watching keeper, .ok _ =>
    printError
      (if o.flag then "File watcher started\n" else "Warning: Could not start file watcher\n")
    modify fun w => { w with serving := some keeper }
    return .finish silent
  | .leaving, .ok _ =>
    modify fun w => { w with serving := none }
    return .finish silent
  | _, .error f => return .finish (.error f)
  | _, .ok _ => return .finish silent

def sinkOf (verbose : Bool) : Sink :=
  if verbose then .display else .none

/-- Starts the work of a command: the index is opened. -/
def beginCommand (work : Command.Work) : Act Move := do
  match work with
  | .index keeper _ | .rebuild keeper _ =>
    return .call (.keeper keeper (.prepare false)) (.command (.opening work))
  | .search keeper .. =>
    return .call (.keeper keeper (.prepare true)) (.command (.opening work))
  | .load keeper =>
    let k := (← get).keeperOf keeper
    return .pass (.index k.index (.prepare k.root (some k.indexPath)))

def workKeeper : Command.Work → Nat
  | .index keeper _ | .load keeper | .search keeper .. | .rebuild keeper _ => keeper

/-- Closes the index; what is printed last is known. -/
def closeWith (work : Command.Work) (last : Except Failure Command.Last) : Move :=
  .call (.keeper (workKeeper work) .destroy) (.command (.closing last))

/-- What is said of a query that was searched literally. -/
def literalNote (fault : Option Query.Fault) : String :=
  match fault with
  | some fault => "⚠ Searched literally: " ++ fault.message ++ "\n"
  | none => ""

/-- Searches the opened index. -/
def searchOpened (keeper : Nat) (query : String) (exact : Bool) (limit : Int) :
    Act Command.Last := do
  if exact then
    let hits ← searchKeeper keeper query true (some limit)
    return ⟨Command.hitsText hits, ""⟩
  else
    let found ← queryKeeper keeper query (some limit)
    return ⟨Command.hitsText found.hits, literalNote found.parsed.fault⟩

/-- What is printed when an index was built. -/
def builtText (verbose : Bool) (word : String) (n : Nat) : Command.Last :=
  ⟨(if verbose then "\n" else "") ++ "✓ " ++ word ++ " " ++ Number.grouped n ++ " entries in " ++
    Report.elapsed 0 ++ "\n", ""⟩

def resumeCommand (waiting : Command.Waiting) (o : Outcome) : Act Move := do
  match waiting, o with
  | .opening work, .ok _ =>
    match work with
    | .index keeper verbose =>
      return .call (.keeper keeper (.reconcile (sinkOf verbose))) (.command (.finishing work))
    | .rebuild keeper verbose =>
      return .call (.keeper keeper (.refresh (sinkOf verbose))) (.command (.finishing work))
    | .search keeper query exact limit =>
      return closeWith work (.ok (← searchOpened keeper query exact limit))
    | .load _ => return .finish o
  | .finishing work, .ok _ =>
    match work with
    | .index keeper verbose =>
      let w ← get
      let size := (w.indexOf (w.keeperOf keeper).index).entries.size
      return closeWith work (.ok (builtText verbose "Indexed" size))
    | .rebuild _ verbose => return closeWith work (o.count.map (builtText verbose "Rebuilt"))
    | _ => return .finish o
  | .closing last, .ok _ => return .finish (last.map .last)
  | .closing _, .error f => return .finish (.error f)
  | .opening work, .error f | .finishing work, .error f => return closeWith work (.error f)

end LiveIndex.World
