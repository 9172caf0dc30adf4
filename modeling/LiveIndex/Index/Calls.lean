import LiveIndex.Index.Basic
import LiveIndex.Loop.Stretch
import LiveIndex.Settings

/-! The calls of an index that store it. A save takes the lock, clears the mark of a change before
it writes, and sets it again if writing fails; memory is never taken back. -/

namespace LiveIndex.Index

/-- What can be asked of an index and may take a while. -/
inductive Call
  | prepare (root : String) (path : Option String)
  | load
  | save
  | batch (entries : List Entry)
  | remove (path : String)
  | destroy

/-- What a call answers. -/
inductive Answer
  | nothing
  | flag (b : Bool)
  | count (n : Nat)
  | summary (s : Summary)

/-- What an index has done elsewhere. Timers and scheduled saves go by tickets. -/
inductive Effect
  | log (level : Level) (text : String)
  | deliver (dest : Listener) (changes : List Notice)
  | arm (ticket : Nat) (delay : Int)
  | disarm (ticket : Nat)
  | startSave (ticket : Nat)
  | unlock

inductive Request
  | read (path : String)
  | lock
  | write (path : String) (snapshot : Snapshot)
  | saves (tickets : List Nat)

/-- What is left to do after a save. -/
inductive AfterSave
  | answer
  | summary (s : Summary)
  | count (n : Nat)
  | drop

inductive Waiting
  | reading (initial : Bool)
  | queued (after : AfterSave)
  | writing (after : AfterSave)
  | draining

abbrev Work := Stretch Index Effect Request Waiting Answer

def showPath (path : Option String) : String :=
  path.getD "None"

def deliveries (s : Index) (changes : List Notice) : List Effect :=
  s.listeners.map fun l => .deliver l changes

/-- Forgets everything at the end of an index's life. -/
def dropState (s : Index) : Index :=
  { s with listeners := [], entries := .empty, stats := .zero 0, finder := none }

/-- Goes on after a save, which wrote something or not. -/
def afterSave (s : Index) (effects : List Effect) (saved : Bool) : AfterSave → Work
  | .answer => .done s effects (.flag saved)
  | .summary summary => .done s effects (.summary summary)
  | .count n => .done s effects (.count n)
  | .drop => .done s.dropState effects .nothing

/-- Starts a save: nothing is written if nothing changed, and saves take turns. -/
def beginSave (s : Index) (after : AfterSave) : Work :=
  if s.path.isNone || !s.dirty then s.afterSave [] false after
  else .ask s [] .lock (.queued after)

/-- Writes the index as it is now, unless the save before did. -/
def lockTaken (s : Index) (after : AfterSave) : Work :=
  match s.path, s.dirty with
  -- What changes from here on is dirty again and left to a later save.
  | some path, true => .ask { s with dirty := false } [] (.write path s.snapshot) (.writing after)
  | _, _ => s.afterSave [.unlock] false after

/-- Whether a save lives with a failure. -/
def toleratesWrite (f : Failure) : Bool :=
  match f.family with
  | .system | .type | .value => true
  | _ => false

/-- The index was written, or is still to be written. -/
def written (s : Index) (after : AfterSave) : Except Failure Unit → Work
  | .ok () => s.afterSave [.unlock] true after
  | .error f =>
    if toleratesWrite f then
      { s with dirty := true }.afterSave
        [ .log .error ("Failed to save index to " ++ showPath s.path ++ ": " ++ f.message),
          .unlock ]
        false after
    else .failed s [.unlock] f

/-- What follows a load that found no usable index. -/
def startEmpty (s : Index) (initial : Bool) (effects : List Effect) : Work :=
  if initial then .done s.renewFinder effects .nothing else .done s effects (.flag false)

def beginLoad (s : Index) (initial : Bool) : Work :=
  match s.path with
  | none => s.startEmpty initial []
  | some path => .ask s [] (.read path) (.reading initial)

/-- Whether the stored counters are not those of the stored entries. -/
def disagreement (s : Index) (snapshot : Snapshot) : List Effect :=
  if s.stats.counters = snapshot.stats.counters then []
  else
    [ .log .warning ("Snapshot stats " ++ snapshot.stats.countersText ++
        " disagree with entries " ++ s.stats.countersText ++ "; using entries") ]

/-- Takes over a stored index. One that is missing or cannot be used counts as none. -/
def loaded (s : Index) (initial : Bool) : Except Failure Snapshot → Work
  | .ok snapshot =>
    let s := s.adopt snapshot
    .done s (s.disagreement snapshot) (if initial then .nothing else .flag true)
  | .error (.noSuchFile _) => s.startEmpty initial []
  | .error f =>
    match f.family with
    | .system | .value =>
      s.startEmpty initial
        [ .log .warning ("Could not load index from " ++ showPath s.path ++
            ", starting empty: " ++ f.message) ]
    | _ => .failed s [] f

/-- Binds an index to a root and to the place of its stored form, and loads that. -/
def beginPrepare (s : Index) (root : String) (path : Option String) : Work :=
  let root := Path.tidy root
  let path := (path.map Path.tidy).getD (Environment.defaultIndexPath root)
  { s with root := some root, path := some path }.beginLoad true

/-- Tells of changes and saves them. -/
def publish (s : Index) (now : Int) (changes : List Notice) (after : AfterSave) : Work :=
  let s := { s.noteChange now with version := s.version + 1 }
  (s.beginSave after).after (s.deliveries changes)

def beginBatch (s : Index) (now : Int) (entries : List Entry) : Work :=
  let (s, summary, changes) := s.upsertAll entries
  if changes.isEmpty then .done s [] (.summary summary)
  else s.publish now changes (.summary summary)

def beginRemove (s : Index) (now : Int) (path : String) : Work :=
  let (s, removed) := s.removeFamily path
  if removed.isEmpty then .done s [] (.count 0)
  else s.publish now (removed.map fun e => ⟨.remove, e.path, none⟩) (.count removed.length)

/-- Ends an index: running saves are waited for, then what changed is saved. -/
def beginDestroy (s : Index) : Work :=
  let disarmed := s.saveTimer.toList.map Effect.disarm
  let s := { s with saveTimer := none }
  if s.saves.isEmpty then (s.beginSave .drop).after disarmed
  else .ask s disarmed (.saves s.saves) .draining

def begin (s : Index) (now : Int) : Call → Work
  | .prepare root path => s.beginPrepare root path
  | .load => s.beginLoad false
  | .save => s.beginSave .answer
  | .batch entries => s.beginBatch now entries
  | .remove path => s.beginRemove now path
  | .destroy => s.beginDestroy

/-- Schedules a save, in place of the one that is scheduled. -/
def saveLater (s : Index) : Index × List Effect :=
  let disarmed := s.saveTimer.toList.map Effect.disarm
  ({ s with saveTimer := some s.ticket, ticket := s.ticket + 1 },
    disarmed ++ [.arm s.ticket s.options.persistDelay])

/-- The time of a scheduled save has come. -/
def saveDue (s : Index) (ticket : Nat) : Index × List Effect :=
  ({ s with saveTimer := none, saves := s.saves ++ [ticket] }, [.startSave ticket])

/-- A scheduled save is over. -/
def saveOver (s : Index) (ticket : Nat) : Index :=
  { s with saves := s.saves.erase ticket }

/-- Upserts one entry and schedules a save, if time passes at all for the caller. -/
def add (s : Index) (now : Int) (timed : Bool) (e : Entry) : Index × List Effect :=
  let (s, outcome) := s.upsert e
  match outcome.change? e with
  | none => (s, [])
  | some change =>
    let (s, effects) := if timed then (s.noteChange now).saveLater else (s.noteChange now, [])
    (s, effects ++ s.deliveries [change])

/-- Compares the counters with the entries. -/
def verify (s : Index) : Bool × List Effect :=
  if s.statsHold then (true, [])
  else
    (false,
      [ .log .warning ("Index stats drifted: counted " ++ s.stats.countersText ++
          ", entries say " ++ s.foldedStats.countersText) ])

end LiveIndex.Index
