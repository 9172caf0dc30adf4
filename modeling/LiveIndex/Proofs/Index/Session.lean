import LiveIndex.Index.Calls
import LiveIndex.Index.Search
import LiveIndex.Proofs.Loop.Schedule
import LiveIndex.Snapshot.File

/-! An index under any schedule. Calls begin at any time and are interrupted only where they wait;
a lock, a timer, a task and the disk let them go on in any order that these allow. What the index
does at each point is what it does when it runs. -/

namespace LiveIndex.Index

def withLock (s : Index) (lock : Lock) : Index :=
  { s with lock }

@[simp] theorem withLock_lock (s : Index) (lock : Lock) : (s.withLock lock).lock = lock := rfl

@[simp] theorem withLock_withLock (s : Index) (lock lock' : Lock) :
    (s.withLock lock).withLock lock' = s.withLock lock' := rfl

/-- A call that waits. The saves of a timer run under a ticket. -/
structure Flight where
  id : Nat
  ticket : Option Nat
  request : Request
  waiting : Waiting

/-- What concerns the stored form of an index, apart from changes of single entries. -/
inductive Mark
  | cleared
  | writeBegun
  | writeOver (succeeded : Bool)
  deriving DecidableEq

/-- An index with everything that is under way. `file` is what opening its stored form gives,
`armed` are the timers that run, `due` the saves that a timer has started and that have not begun,
and `ended` those that are over and still to be noted. The records have the newest first. -/
structure Session where
  index : Index
  file : Except Failure Content
  flights : List Flight
  armed : List Nat
  due : List Nat
  ended : List Nat
  nextId : Nat
  marks : List Mark
  told : List (Listener × List Notice)
  answers : List (Nat × Except Failure Answer)

/-- What can happen next. What cannot happen at the time leaves everything as it is. -/
inductive Action
  | begin (now : Int) (call : Call)
  | add (now : Int) (timed : Bool) (e : Entry)
  | clear (now : Int)
  | search (text : String) (exact : Bool) (limit : Option Int)
  | query (text : String) (limit : Option Int)
  | listen (l : Listener)
  | unlisten (l : Listener)
  | disturb (file : Except Failure Content)
  | ring (ticket : Nat)
  | startSave (ticket : Nat)
  | resume (id : Nat) (result : Except Failure Unit)
  | noteOver (ticket : Nat)

namespace Session

def fresh (options : Options) (file : Except Failure Content) : Session where
  index := .create options
  file
  flights := []
  armed := []
  due := []
  ended := []
  nextId := 0
  marks := []
  told := []
  answers := []

def perform (s : Session) : Effect → Session
  | .log _ _ => s
  | .deliver l changes => { s with told := (l, changes) :: s.told }
  | .arm ticket _ => { s with armed := s.armed ++ [ticket] }
  | .disarm ticket => { s with armed := s.armed.erase ticket }
  | .startSave ticket => { s with due := s.due ++ [ticket] }
  | .unlock => { s with index := s.index.withLock s.index.lock.leave.1 }

/-- Takes over a state of the index and performs what it has done elsewhere. -/
def change (s : Session) (index : Index) (effects : List Effect) : Session :=
  effects.foldl perform { s with index }

def park (s : Session) (f : Flight) : Session :=
  { s with
    flights := s.flights ++ [f]
    marks :=
      match f.request with
      | .write .. => .writeBegun :: s.marks
      | _ => s.marks }

def finish (s : Session) (id : Nat) (ticket : Option Nat) (result : Except Failure Answer) :
    Session :=
  { s with ended := s.ended ++ ticket.toList, answers := (id, result) :: s.answers }

/-- Does a stretch of a call's work. -/
def advance (s : Session) (id : Nat) (ticket : Option Nat) (work : Work) : Session :=
  match work.turn with
  | .done result => (s.change work.state work.effects).finish id ticket result
  | .ask request waiting => (s.change work.state work.effects).park ⟨id, ticket, request, waiting⟩

/-- The same, where a free lock is taken without a pause. -/
def settle (s : Session) (id : Nat) (ticket : Option Nat) (work : Work) : Session :=
  match work.turn with
  | .ask .lock (.queued after) =>
    let s := s.change work.state work.effects
    if s.index.lock.isFree then
      s.advance id ticket ((s.index.withLock s.index.lock.take).lockTaken after)
    else
      { s with index := s.index.withLock (s.index.lock.wait id) }.park
        ⟨id, ticket, .lock, .queued after⟩
  | _ => s.advance id ticket work

def launch (s : Session) (ticket : Option Nat) (work : Work) : Session :=
  { s with nextId := s.nextId + 1 }.settle s.nextId ticket work

/-- The disk has dealt with a write: the new text is in place, or the old one still is. A text that
cannot be made is not written. -/
def concludeWrite (s : Session) (snapshot : Snapshot) (result : Except Failure Unit) :
    Session × Except Failure Unit :=
  match result, snapshot.text with
  | .ok (), .ok text =>
    ({ s with file := .ok (.text text), marks := .writeOver true :: s.marks }, .ok ())
  | .error f, _ | .ok (), .error f => ({ s with marks := .writeOver false :: s.marks }, .error f)

def isRunning (s : Session) (ticket : Nat) : Bool :=
  ticket ∈ s.due || s.flights.any (·.ticket = some ticket)

def without (s : Session) (f : Flight) : Session :=
  { s with flights := s.flights.eraseP (·.id = f.id) }

/-- Goes on with a call that waits, if what it waits for has come. -/
def wake (s : Session) (f : Flight) (result : Except Failure Unit) : Session :=
  match f.request, f.waiting with
  | .read _, .reading initial =>
    (s.without f).settle f.id f.ticket (s.index.loaded initial (Disk.decodeSnapshot s.file))
  | .lock, .queued after =>
    if !s.index.lock.held && s.index.lock.queue.head? = some f.id then
      (s.without f).settle f.id f.ticket
        ((s.index.withLock (s.index.lock.enter f.id)).lockTaken after)
    else s
  | .write _ snapshot, .writing after =>
    let (rest, result) := (s.without f).concludeWrite snapshot result
    rest.settle f.id f.ticket (s.index.written after result)
  | .saves tickets, .draining =>
    if tickets.any s.isRunning then s
    else (s.without f).settle f.id f.ticket (s.index.beginSave .drop)
  | _, _ => s

def step (s : Session) : Action → Session
  | .begin now call => s.launch none (s.index.begin now call)
  | .add now timed e => s.change (s.index.add now timed e).1 (s.index.add now timed e).2
  | .clear now => { s with index := s.index.clear now, marks := .cleared :: s.marks }
  | .search text exact limit => { s with index := (s.index.search text exact limit).1 }
  | .query text limit => { s with index := (s.index.query text limit).1 }
  | .listen l => { s with index := s.index.listen l }
  | .unlisten l => { s with index := s.index.unlisten l }
  | .disturb file => { s with file }
  | .ring ticket =>
    if ticket ∈ s.armed then
      { s with armed := s.armed.erase ticket }.change (s.index.saveDue ticket).1
        (s.index.saveDue ticket).2
    else s
  | .startSave ticket =>
    if ticket ∈ s.due then
      { s with due := s.due.erase ticket }.launch (some ticket) (s.index.beginSave .answer)
    else s
  | .resume id result =>
    match s.flights.find? (·.id = id) with
    | some f => s.wake f result
    | none => s
  | .noteOver ticket =>
    if ticket ∈ s.ended then
      { s with index := s.index.saveOver ticket, ended := s.ended.erase ticket }
    else s

/-- Lets things happen one after another. -/
def run (s : Session) (actions : List Action) : Session :=
  actions.foldl step s

/-- An index that was bound to a place as soon as it was made, and loaded from there. -/
def opened (options : Options) (root : String) (path : Option String)
    (file : Except Failure Content) : Session :=
  (fresh options file).run [.begin 0 (.prepare root path), .resume 0 (.ok ())]

end Session

/-- What an effect does to the lock. -/
def Effect.onLock : Effect → Lock → Lock
  | .unlock, lock => lock.leave.1
  | _, lock => lock

namespace Session

variable (s : Session)

theorem run_append (as bs : List Action) : s.run (as ++ bs) = (s.run as).run bs :=
  List.foldl_append ..

@[simp] theorem perform_index (e : Effect) :
    (s.perform e).index = s.index.withLock (e.onLock s.index.lock) := by
  cases e <;> rfl

@[simp] theorem perform_file (e : Effect) : (s.perform e).file = s.file := by
  cases e <;> rfl

@[simp] theorem perform_flights (e : Effect) : (s.perform e).flights = s.flights := by
  cases e <;> rfl

@[simp] theorem perform_marks (e : Effect) : (s.perform e).marks = s.marks := by
  cases e <;> rfl

@[simp] theorem perform_answers (e : Effect) : (s.perform e).answers = s.answers := by
  cases e <;> rfl

@[simp] theorem perform_nextId (e : Effect) : (s.perform e).nextId = s.nextId := by
  cases e <;> rfl

@[simp] theorem change_index (index : Index) (effects : List Effect) :
    (s.change index effects).index =
      index.withLock (effects.foldl (fun l e => e.onLock l) index.lock) := by
  induction effects generalizing s index with
  | nil => rfl
  | cons e effects ih =>
    have hstep : s.change index (e :: effects) =
        ({ s with index }.perform e).change ({ s with index }.perform e).index effects := rfl
    rw [hstep, ih, perform_index]
    rfl

@[simp] theorem change_file (index : Index) (effects : List Effect) :
    (s.change index effects).file = s.file :=
  foldl_field file perform_file effects _

@[simp] theorem change_flights (index : Index) (effects : List Effect) :
    (s.change index effects).flights = s.flights :=
  foldl_field flights perform_flights effects _

@[simp] theorem change_marks (index : Index) (effects : List Effect) :
    (s.change index effects).marks = s.marks :=
  foldl_field marks perform_marks effects _

@[simp] theorem change_answers (index : Index) (effects : List Effect) :
    (s.change index effects).answers = s.answers :=
  foldl_field answers perform_answers effects _

@[simp] theorem change_nextId (index : Index) (effects : List Effect) :
    (s.change index effects).nextId = s.nextId :=
  foldl_field nextId perform_nextId effects _

@[simp] theorem park_index (f : Flight) : (s.park f).index = s.index := rfl

@[simp] theorem finish_index (id : Nat) (ticket : Option Nat) (result : Except Failure Answer) :
    (s.finish id ticket result).index = s.index := rfl

/-- A stretch of work leaves its own state, apart from the lock. -/
theorem advance_index (id : Nat) (ticket : Option Nat) (work : Work) :
    ∃ lock, (s.advance id ticket work).index = work.state.withLock lock := by
  unfold advance
  split <;> exact ⟨_, change_index ..⟩

/-- After work an index is as the work left it, or as it is once it has got the lock on top of
that. -/
theorem settle_index (id : Nat) (ticket : Option Nat) (work : Work) :
    ∃ lock, (s.settle id ticket work).index = work.state.withLock lock ∨
      ∃ after lock', (s.settle id ticket work).index =
        ((work.state.withLock lock').lockTaken after).state.withLock lock := by
  unfold settle
  split
  · next after _ =>
    dsimp only
    split
    · obtain ⟨lock, h⟩ := (s.change work.state work.effects).advance_index id ticket
        (((s.change work.state work.effects).index.withLock
          (s.change work.state work.effects).index.lock.take).lockTaken after)
      refine ⟨lock, .inr ⟨after, (s.change work.state work.effects).index.lock.take, ?_⟩⟩
      rw [h, change_index, withLock_withLock]
    · refine ⟨(s.change work.state work.effects).index.lock.wait id, .inl ?_⟩
      rw [park_index, change_index, withLock_withLock]
  · obtain ⟨lock, h⟩ := s.advance_index id ticket work
    exact ⟨lock, .inl h⟩

end Session

end LiveIndex.Index
