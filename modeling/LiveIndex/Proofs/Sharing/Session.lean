import LiveIndex.Proofs.Index.Lasting
import LiveIndex.Proofs.Intake.Lookups
import LiveIndex.Proofs.Reconciliation.Session
import LiveIndex.Proofs.Sharing.Record

/-! An index that the calls of a keeper and an intake share, under any schedule. Each of them looks
at the disk, waits, and has the index changed in the step in which it goes on. Between any two steps
the disk may change, and the index may save, answer and be searched. -/

namespace LiveIndex.Sharing

/-- What a call of the keeper waits for; a reconciliation works on behalf of one. -/
inductive Task
  | keeper (request : Keeper.Request) (waiting : Keeper.Waiting)
  | reconciling (request : Reconciliation.Request) (waiting : Reconciliation.Waiting)

/-- What a call has come by while it waits: what the disk has said, or the number under which the
index does what it was asked. -/
inductive Got
  | entry (result : Except Failure Entry)
  | entries (result : Except Failure (List Entry))
  | inventory (result : Except Failure (OrderedMap String Entry))
  | asked (number : Nat)

/-- A call of the keeper that waits. A refresh waits in `outer` while its scan is under way. -/
structure Job where
  task : Task
  outer : Option Keeper.Waiting
  got : Option Got

/-- The index, the intake and the calls of the keeper, with what has been looked up for changes,
the number under which the index does what the intake has asked of it, and a record of all that was
found and applied. -/
structure Session where
  base : Index.Session
  intake : Intake.Session
  seen : List (Nat × Except Failure Entry)
  asked : Option Nat
  jobs : OrderedMap Nat Job
  nextJob : Nat
  record : List Event

/-- What can happen next. What cannot happen at the time leaves everything as it is. -/
inductive Action
  | index (a : Index.Action)
  | intake (now : Int) (a : Intake.Action)
  | look (id : Nat) (d : Disk)
  | answer (now : Int) (id : Nat)
  | begin (now : Int) (env : Environment) (watching : Bool) (call : Keeper.Call)
  | observe (id : Nat) (d : Disk)
  | goOn (now : Int) (id : Nat)

/-- The calls of a keeper that bring the index up to date. -/
def isUpdate : Keeper.Call → Bool
  | .scan _ | .reconcile _ | .refresh _ | .refreshFile _ => true
  | _ => false

/-- What an intake does by itself: what it waits for comes from the disk and the index, and it is
not ended. -/
def isOwn : Intake.Action → Bool
  | .begin .destroy | .resume _ (.found _) | .resume _ (.served _) => false
  | _ => true

namespace Session

def start (base : Index.Session) (root : String) (settings : Intake.Options) : Session where
  base
  intake := .fresh root settings
  seen := []
  asked := none
  jobs := .empty
  nextJob := 0
  record := []

/-- Has the index do something, and records it. -/
def order (s : Session) (a : Index.Action) (events : List Event) : Session :=
  { s with base := s.base.step a, record := s.record ++ events }

def note (s : Session) (e : Event) : Session :=
  { s with record := s.record ++ [e] }

def park (s : Session) (id : Nat) (job : Job) : Session :=
  { s with jobs := s.jobs.insert id job }

def close (s : Session) (id : Nat) : Session :=
  { s with jobs := s.jobs.erase id }

/-- What a call of the keeper asks for. What the index is asked to do is begun at once. -/
def ask (s : Session) (k : Keeper) (now : Int) (id : Nat) (outer : Option Keeper.Waiting)
    (request : Keeper.Request) (waiting : Keeper.Waiting) : Session :=
  let asked : Job := ⟨.keeper request waiting, outer, some (.asked s.base.nextId)⟩
  match request with
  | .store es =>
    (s.order (.begin now (.batch es)) (stored (es.map fun e => (.call id, e)))).park id asked
  | .remove path =>
    (s.order (.begin now (.remove path)) [removal s.base.index (.call id) path]).park id asked
  | .save => (s.order (.begin now .save) []).park id asked
  | .scan sink =>
    match (k.beginScan sink).turn with
    | .ask request inner => s.park id ⟨.keeper request inner, some waiting, none⟩
    | .done _ => s.close id
  | .reconcile _ =>
    match Reconciliation.begin.turn with
    | .ask request inner => s.park id ⟨.reconciling request inner, some waiting, none⟩
    | .done _ => s.close id
  | _ => s.park id ⟨.keeper request waiting, outer, none⟩

def perform (now : Int) (id : Nat) (s : Session) : Keeper.Effect → Session
  | .clear => s.order (.clear now) [.cleared id]
  | _ => s

/-- Does a stretch of work of the keeper. None of the calls that update the index changes the keeper
itself. -/
def keep (s : Session) (k : Keeper) (now : Int) (id : Nat) (outer : Option Keeper.Waiting)
    (work : Keeper.Work) : Session :=
  let s := work.effects.foldl (perform now id) s
  match work.turn, outer with
  | .ask request waiting, _ => s.ask k now id outer request waiting
  | .done result, some .rescanning =>
    match (k.rescanned (result.map fun _ => ())).turn with
    | .ask request waiting => s.ask k now id none request waiting
    | .done _ => s.close id
  | .done _, _ => s.close id

/-- Does a stretch of work of a reconciliation. -/
def reconcile (s : Session) (k : Keeper) (now : Int) (id : Nat) (outer : Option Keeper.Waiting)
    (work : Reconciliation.Work) : Session :=
  match work.turn with
  | .ask request waiting =>
    let asked : Job := ⟨.reconciling request waiting, outer, some (.asked s.base.nextId)⟩
    match request with
    | .batch es =>
      (s.order (.begin now (.batch es)) (stored (es.map fun e => (.call id, e)))).park id asked
    | .remove path =>
      (s.order (.begin now (.remove path)) [removal s.base.index (.call id) path]).park id asked
    | .inventory => s.park id ⟨.reconciling .inventory waiting, outer, none⟩
  | .done result => s.keep k now id none (k.reconciled (result.map Reconciliation.Result.total))

end Session

/-- What the keeper does when the index has answered. -/
def served (k : Keeper) (size : Nat) (result : Except Failure Index.Answer) :
    Keeper.Waiting → Keeper.Work
  | .storing sink n => k.stored sink n (Reconciliation.Session.summaryOf (some result))
  | .refreshing e => k.refreshed (some e) (result.map fun _ => ())
  | .resaving => k.resaved size (result.map fun _ => ())
  | _ => k.refreshed none (result.map fun _ => ())

/-- What a reconciliation does when the index has answered. -/
def reconciled (indexed : OrderedMap String Entry) (result : Except Failure Index.Answer) :
    Reconciliation.Waiting → Reconciliation.Work
  | .storing run count gone =>
    Reconciliation.stored indexed run count gone (Reconciliation.Session.summaryOf (some result))
  | .removing run path gone =>
    Reconciliation.removed indexed run path gone (Reconciliation.Session.countOf (some result))
  | .scanning => Reconciliation.begin

namespace Session

/-- What the disk says to a call of the keeper. -/
def observe (s : Session) (k : Keeper) (id : Nat) (d : Disk) (job : Job) : Session :=
  match job.got, job.task with
  | none, .keeper .walk _ =>
    let result := d.scan k.filter true k.root
    (s.note (.found (.call id) (.walked result))).park id
      { job with got := some (.entries result) }
  | none, .keeper (.lookUp path) _ =>
    let result := d.entry path k.root
    (s.note (.found (.call id) (.read path result))).park id
      { job with got := some (.entry result) }
  | none, .reconciling .inventory _ =>
    let result := d.inventory k.filter k.root
    (s.note (.found (.call id) (.listed result))).park id
      { job with got := some (.inventory result) }
  | _, _ => s

/-- Goes on with a call of the keeper, if what it waits for has come. -/
def goOn (s : Session) (k : Keeper) (now : Int) (id : Nat) (job : Job) : Session :=
  match job.task, job.got with
  | .keeper _ (.walking sink), some (.entries result) =>
    s.keep k now id job.outer (k.walked sink result)
  | .keeper _ (.lookingUp path), some (.entry result) =>
    s.keep k now id job.outer (k.lookedUp path result)
  | .reconciling _ .scanning, some (.inventory result) =>
    s.reconcile k now id job.outer (Reconciliation.scanned s.base.index.entries result)
  | .keeper _ waiting, some (.asked n) =>
    match s.base.answer? n with
    | some result => s.keep k now id job.outer (served k s.base.index.entries.size result waiting)
    | none => s
  | .reconciling _ waiting, some (.asked n) =>
    match s.base.answer? n with
    | some result =>
      s.reconcile k now id job.outer (reconciled s.base.index.entries result waiting)
    | none => s
  | _, _ => s

/-- The entries that changes bring along, each on account of its change. -/
def brought (stores : List Intake.Change) : List (Source × Entry) :=
  stores.filterMap fun c => c.entry.map fun e => (.arrival c.arrival, e)

/-- What the intake asks of the index is begun at once. -/
def hand (s : Session) (now : Int) : Session :=
  match s.asked, s.intake.flights.find? (·.stage?.isSome) with
  | none, some ⟨_, _, .store es, .storing stores _⟩ =>
    { s.order (.begin now (.batch es)) (stored (brought stores)) with asked := some s.base.nextId }
  | none, some ⟨_, _, .remove path, .removing c _⟩ =>
    { s.order (.begin now (.remove path)) [removal s.base.index (.arrival c.arrival) path] with
      asked := some s.base.nextId }
  | _, _ => s

/-- What arrives at the intake and needs no lookup. -/
def vanishings (s : Session) : Intake.Action → List Event
  | .begin call =>
    (s.intake.intake.arrivalEvents call).filterMap fun
      | .queued c => some (.found (.arrival c.arrival) (.vanished c.path))
      | _ => none
  | _ => []

/-- Lets the intake do something. -/
def advance (s : Session) (now : Int) (a : Intake.Action) : Session :=
  { s with intake := s.intake.step a, record := s.record ++ s.vanishings a }.hand now

/-- The disk looks up the metadata that a call of the intake asks for. -/
def look (s : Session) (d : Disk) (f : Intake.Flight) : Session :=
  match f.request, f.waiting with
  | .lookUp path, .lookingUp n _ _ =>
    if s.seen.any (·.1 = n) then s
    else
      let result := d.entry path s.intake.intake.root
      { s.note (.found (.arrival n) (.resolved path result)) with seen := s.seen ++ [(n, result)] }
  | _, _ => s

/-- Goes on with a call of the intake, if what it waits for has come. -/
def answer (s : Session) (now : Int) (f : Intake.Flight) : Session :=
  match f.waiting with
  | .lookingUp n _ _ =>
    match s.seen.find? (·.1 = n) with
    | some (_, result) => s.advance now (.resume f.id (.found result))
    | none => s
  | .joining _ => s
  | .storing .. | .removing .. =>
    match s.asked.bind s.base.answer? with
    | some result =>
      { s with asked := none }.advance now (.resume f.id (.served (result.map fun _ => ())))
    | none => s

def step (k : Keeper) (s : Session) : Action → Session
  | .index a => if a.isQuiet then s.order a [] else s
  | .intake now a => if isOwn a then s.advance now a else s
  | .look id d =>
    match s.intake.flights.find? (·.id = id) with
    | some f => s.look d f
    | none => s
  | .answer now id =>
    match s.intake.flights.find? (·.id = id) with
    | some f => s.answer now f
    | none => s
  | .begin now env watching call =>
    if isUpdate call then
      { s with nextJob := s.nextJob + 1 }.keep k now s.nextJob none (k.begin env watching call)
    else s
  | .observe id d =>
    match s.jobs.get? id with
    | some job => s.observe k id d job
    | none => s
  | .goOn now id =>
    match s.jobs.get? id with
    | some job => s.goOn k now id job
    | none => s

/-- Lets things happen one after another. -/
def run (k : Keeper) (s : Session) (actions : List Action) : Session :=
  actions.foldl (step k) s

end Session

end LiveIndex.Sharing
