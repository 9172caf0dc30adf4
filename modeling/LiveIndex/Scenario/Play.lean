import LiveIndex.World.Run

/-! Playing a scenario. Each step ends when nothing more can be done without time passing, and then
reports what was seen. -/

namespace LiveIndex.Scenario

/-- The state of the current index. -/
structure IndexState where
  size : Nat
  version : Int
  stats : Stats
  dirty : Bool

/-- The queue of the current intake, and how many changes it has given up. -/
structure IntakeState where
  queue : List Intake.Change
  missed : Nat

/-- What is seen of a step: what it answered, unless it goes on in the background; what was
recorded, logged and printed; and the state of the components after it. -/
structure Report where
  outcome : Option World.Outcome
  events : List World.Event
  log : List (Level × String)
  errors : String
  index : Option IndexState
  intake : Option IntakeState
  watch : Option World.WatchStatus

def indexState (w : World) : Option IndexState :=
  w.currentIndex?.map fun id =>
    let s := w.indexOf id
    ⟨s.entries.size, s.version, s.stats, s.dirty⟩

def intakeState (w : World) : Option IntakeState :=
  w.currentIntake?.map fun id =>
    let ix := (w.intakeSlot id).intake
    ⟨ix.queue.values, ix.missed⟩

def Step.isBackground : Step → Bool
  | .background .. => true
  | _ => false

/-- Takes one step, and lets everything run that is ready after it. -/
def play (s : Step) : World.Act Report := do
  modify fun w => { w with events := [], log := [], errors := "" }
  let outcome ← World.runCall (.step s)
  let w ← get
  return {
    outcome := if s.isBackground then none else some outcome
    events := w.events
    log := w.log
    errors := w.errors
    index := indexState w
    intake := intakeState w
    watch := w.stage.watch.map w.watchStatus }

def playAll : List Step → World.Act (List Report)
  | [] => return []
  | s :: rest => do
    let r ← play s
    return r :: (← playAll rest)

end LiveIndex.Scenario
