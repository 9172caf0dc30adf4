import LiveIndex.World.Basic

/-! What tasks can wait for: a lock, a time, work on another thread, another task or several of
them. Whoever is woken goes to the end of what is ready. -/

namespace LiveIndex.World

namespace Outcome

def unit (o : Outcome) : Except Failure Unit :=
  o.map fun _ => ()

def snapshot : Outcome → Except Failure Snapshot
  | .ok (.snapshot s) => .ok s
  | .ok _ => .error .noEntries
  | .error f => .error f

def summary : Outcome → Except Failure Summary
  | .ok (.summary s) => .ok s
  | .ok _ => .ok .zero
  | .error f => .error f

def count : Outcome → Except Failure Nat
  | .ok (.count n) => .ok n
  | .ok (.reconciled r) => .ok r.total
  | .ok _ => .ok 0
  | .error f => .error f

def entries : Outcome → Except Failure (List Entry)
  | .ok (.entries es) => .ok es
  | .ok _ => .ok []
  | .error f => .error f

def entry : Outcome → Except Failure Entry
  | .ok (.entry (some e)) => .ok e
  | .ok _ => .error .noEntries
  | .error f => .error f

def inventory : Outcome → Except Failure (OrderedMap String Entry)
  | .ok (.inventory m) => .ok m
  | .ok _ => .ok .empty
  | .error f => .error f

def launched : Outcome → Except Failure (Nat × Nat × Bool)
  | .ok (.launched watch intake started) => .ok (watch, intake, started)
  | .ok _ => .ok (0, 0, false)
  | .error f => .error f

def flag : Outcome → Bool
  | .ok (.flag b) => b
  | _ => false

end Outcome

/-- The outcome of a call that answers nothing. -/
def silent : Outcome :=
  .ok .nothing

def indexOf (w : World) (id : Nat) : Index :=
  (w.indexes[id]?).getD (.create .default)

def setIndex (id : Nat) (s : Index) : Act Unit :=
  modify fun w => { w with indexes := w.indexes.setIfInBounds id s }

def keeperOf (w : World) (id : Nat) : Keeper :=
  (w.keepers[id]?).getD
    ⟨"/", Environment.defaultIndexPath "/", [], [], 0, none, none, none, false, .free⟩

def setKeeper (id : Nat) (k : Keeper) : Act Unit :=
  modify fun w => { w with keepers := w.keepers.setIfInBounds id k }

def intakeSlot (w : World) (id : Nat) : IntakeSlot :=
  (w.intakes[id]?).getD ⟨.create "/" .default, 0, none⟩

def setIntakeSlot (id : Nat) (s : IntakeSlot) : Act Unit :=
  modify fun w => { w with intakes := w.intakes.setIfInBounds id s }

def watchSlot (w : World) (id : Nat) : WatchSlot :=
  (w.watches[id]?).getD ⟨.create "/" ⟨none, []⟩ 300 true, .scripted none⟩

def setWatch (id : Nat) (watch : Watch) : Act Unit :=
  modify fun w =>
    { w with watches := w.watches.modify id fun slot => { slot with watch } }

def feedOf (w : World) (id : Nat) : Feed :=
  (w.feeds[id]?).getD (.create .default)

def setFeed (id : Nat) (f : Feed) : Act Unit :=
  modify fun w => { w with feeds := w.feeds.setIfInBounds id f }

def lockOf (w : World) : LockOf → Lock
  | .index id => (w.indexOf id).lock
  | .keeper id => (w.keeperOf id).lock

def setLock (l : LockOf) (lock : Lock) : Act Unit := do
  let w ← get
  match l with
  | .index id => setIndex id { w.indexOf id with lock }
  | .keeper id => setKeeper id { w.keeperOf id with lock }

/-- The index that steps concern: one that was made on its own comes before a keeper's. -/
def currentIndex? (w : World) : Option Nat :=
  w.stage.index.or (w.stage.keeper.map fun id => (w.keeperOf id).index)

/-- The intake that steps concern. -/
def currentIntake? (w : World) : Option Nat :=
  w.stage.intake.or (w.stage.keeper.bind fun id => (w.keeperOf id).intake)

/-- Takes a lock, or waits for it. -/
def beginLock (me : Nat) (l : LockOf) : Act Move := do
  let lock := (← get).lockOf l
  if lock.isFree then
    setLock l lock.take
    return .finish silent
  else
    setLock l (lock.wait me)
    return .blockIn (.lock l)

/-- The lock that was waited for is free. -/
def resumeLock (me : Nat) (l : LockOf) : Act Move := do
  setLock l (((← get).lockOf l).enter me)
  return .finish silent

/-- Gives a lock back and wakes the first that waits for it. -/
def unlock (l : LockOf) : Act Unit := do
  let (lock, next) := ((← get).lockOf l).leave
  setLock l lock
  if let some task := next then enqueue (.resume task silent)

/-- Waits for the end of a task. One that is over is not waited for. -/
def beginJoin (me task : Nat) : Act Move := do
  let w ← get
  match w.tasks[task]? with
  | none => return .finish silent
  | some t =>
    match t.outcome with
    | some o => return .finish o
    | none =>
      let t := { t with waiters := t.waiters ++ [.task me] }
      set { w with tasks := w.tasks.setIfInBounds task t }
      return .block

/-- Has a group told of the end of a task, at once if that is over. -/
def joinGroup (group task : Nat) : Act Unit := do
  let w ← get
  match w.tasks[task]? with
  | none => pure ()
  | some t =>
    if t.outcome.isSome then enqueue (.wake (.group group) task)
    else
      let t := { t with waiters := t.waiters ++ [.group group] }
      set { w with tasks := w.tasks.setIfInBounds task t }

/-- Waits for the ends of several tasks. -/
def beginGather (me : Nat) (tasks : List Nat) : Act Move := do
  if tasks.isEmpty then return .finish silent
  let w ← get
  let group := w.groups.size
  set { w with groups := w.groups.push ⟨tasks.length, me⟩ }
  tasks.forM (joinGroup group)
  return .block

/-- One task of a group is over; after the last one the group's waiter goes on. -/
def groupMember (group : Nat) : Act Unit := do
  let w ← get
  match w.groups[group]? with
  | none => pure ()
  | some g =>
    set { w with groups := w.groups.setIfInBounds group { g with left := g.left - 1 } }
    if g.left = 1 then enqueue (.resume g.waiter silent)

/-- Waits for some time, or at least until the others had their turn. -/
def beginSleep (me : Nat) (ms : Int) : Act Move := do
  if 0 < ms then arm ms (.wake me) else enqueue (.resume me silent)
  return .block

/-- Waits for work on another thread: the others have their turn first. -/
def beginOffload (me : Nat) (o : Outcome) : Act Move := do
  enqueue (.resume me o)
  return .block

/-- Ends a task: what depends on its end is made ready. -/
def endTask (id : Nat) (o : Outcome) : Act Unit := do
  let w ← get
  match w.tasks[id]? with
  | none => pure ()
  | some t =>
    set { w with tasks := w.tasks.setIfInBounds id { t with outcome := some o, waiters := [] } }
    match t.tag with
    | .save .. | .job .. | .run .. => enqueue (.ended id)
    | _ => pure ()
    t.waiters.forM fun waiter => enqueue (.wake waiter id)

end LiveIndex.World
