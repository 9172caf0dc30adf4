import LiveIndex.Proofs.Reconciliation.Convergence
import LiveIndex.Proofs.Sharing.Session

/-! What the calls of a keeper do to an index that they share. What a call has found out, and what a
reconciliation has still to remove, it owes to the index; a step of it pays this, or the index shows
it already, or the call goes on owing it. -/

namespace LiveIndex.Sharing

/-- A call that asks the disk waits for just that. -/
def Task.Fits : Task → Prop
  | .keeper .walk waiting => ∃ sink, waiting = .walking sink
  | .keeper (.lookUp path) waiting => waiting = .lookingUp path
  | .reconciling .inventory waiting => waiting = .scanning
  | _ => True

/-- What is found out about a path has that path. -/
def Finding.Sound : Finding → Prop
  | .read path (.ok e) | .resolved path (.ok e) => e.path = path
  | .listed (.ok disk) => Reconciliation.Keyed disk
  | _ => True

namespace Job

/-- What a call has found out and not acted on. -/
def finding? (job : Job) : Option Finding :=
  match job.task, job.got with
  | .keeper _ (.walking _), some (.entries result) => some (.walked result)
  | .keeper _ (.lookingUp path), some (.entry result) => some (.read path result)
  | .reconciling _ .scanning, some (.inventory result) => some (.listed result)
  | _, _ => none

/-- What a call has still to remove. -/
def gone (job : Job) : List String :=
  match job.task with
  | .reconciling _ (.storing _ _ gone) | .reconciling _ (.removing _ _ gone) => gone
  | _ => []

structure Fits (job : Job) : Prop where
  task : job.task.Fits
  sound : ∀ f, job.finding? = some f → f.Sound

/-- A call owes a verdict to the index: it has found it out, or it is about to remove the path. -/
def Owes (k : Keeper) (job : Job) (p : String) (verdict : Option Entry) : Prop :=
  (∃ f, job.finding? = some f ∧ f.Decides k p verdict) ∨ verdict = none ∧ p ∈ job.gone

/-- A call that has found out nothing and has nothing to remove. -/
structure Fresh (job : Job) : Prop where
  task : job.task.Fits
  finding : job.finding? = none
  gone : job.gone = []

variable {k : Keeper} {job : Job}

theorem fits_of_none (htask : job.task.Fits) (hnone : job.finding? = none) : job.Fits := by
  refine ⟨htask, ?_⟩
  intro f hf
  rw [hnone] at hf
  cases hf

theorem Fresh.fits (h : job.Fresh) : job.Fits :=
  fits_of_none h.task h.finding

theorem Fresh.owes_nothing (h : job.Fresh) (p : String) (verdict : Option Entry) :
    ¬job.Owes k p verdict := by
  rintro (⟨f, hf, -⟩ | ⟨-, hp⟩)
  · rw [h.finding] at hf
    cases hf
  · rw [h.gone] at hp
    cases hp

end Job

namespace Session

/-- A stretch of what happens: the record grows, and the entries are what it leaves. -/
structure Grows (s t : Session) (events : List Event) : Prop where
  lasting : t.base.Lasting
  follows : Follows s.base.index.entries events t.base.index.entries
  record : t.record = s.record ++ events

/-- A step of a call, which leaves the intake and the other calls alone. -/
structure Moves (s t : Session) (id : Nat) (events : List Event) (job : Option Job) : Prop extends
    Grows s t events where
  intake : t.intake = s.intake
  seen : t.seen = s.seen
  asked : t.asked = s.asked
  nextJob : t.nextJob = s.nextJob
  others : ∀ i ≠ id, t.jobs.get? i = s.jobs.get? i
  job : t.jobs.get? id = job

/-- A step in which a call pays what it owes. What is left of the call owes the rest. -/
structure Pays (k : Keeper) (s t : Session) (id : Nat) (job : Job) (events : List Event)
    (rest : Option Job) : Prop where
  moves : Moves s t id events rest
  fits : ∀ j, rest = some j → j.Fits
  applied : ∀ e ∈ events, ∃ p v deep, e = .applied (.call id) p v deep ∧ job.Owes k p v
  owed : ∀ j, rest = some j → ∀ p v, j.Owes k p v → job.Owes k p v
  paid : ∀ p v, job.Owes k p v → (∃ j, rest = some j ∧ j.Owes k p v) ∨
    Shows s.base.index.entries p v ∨ ∃ e ∈ events, e.leaves p = some v

variable {k : Keeper} {s t : Session} {now : Int} {id : Nat} {outer : Option Keeper.Waiting}
  {job : Job} {events : List Event}

theorem grows_order (hs : s.base.Lasting) {a : Index.Action} (ha : a.isLasting = true)
    (h : Follows s.base.index.entries events (s.base.index.entriesAfter a)) :
    Grows s (s.order a events) events := by
  obtain ⟨hlasting, hentries⟩ := hs.step ha
  refine ⟨hlasting, ?_, rfl⟩
  change Follows _ _ (s.base.step a).index.entries
  rw [hentries]
  exact h

theorem grows_quiet (hs : s.base.Lasting) {a : Index.Action} (ha : a.isQuiet = true) :
    Grows s (s.order a []) [] := by
  refine grows_order hs (Index.Action.isLasting_of_isQuiet ha) ?_
  rw [Index.entriesAfter_of_isQuiet _ ha]
  exact follows_nil _

theorem grows_nothing (hs : s.base.Lasting) (hbase : t.base = s.base)
    (hrecord : t.record = s.record ++ events) (h : ∀ e ∈ events, ∀ p, e.leaves p = none) :
    Grows s t events := by
  refine ⟨hbase ▸ hs, ?_, hrecord⟩
  rw [hbase]
  exact follows_of_none h _

/-- A step that leaves the index and the record alone. -/
theorem grows_apart (hs : s.base.Lasting) (hbase : t.base = s.base)
    (hrecord : t.record = s.record) : Grows s t [] := by
  refine grows_nothing hs hbase ?_ fun _ he => absurd he List.not_mem_nil
  rw [hrecord, List.append_nil]

/-- A call that begins takes a number. -/
theorem grows_numbered (hs : s.base.Lasting) : Grows s { s with nextJob := s.nextJob + 1 } [] :=
  grows_apart hs rfl rfl

theorem Grows.trans {r : Session} {more : List Event} (h : Grows s t events)
    (hmore : Grows t r more) : Grows s r (events ++ more) :=
  ⟨hmore.lasting, h.follows.append hmore.follows, by
    rw [hmore.record, h.record, List.append_assoc]⟩

theorem jobs_park (s : Session) (id : Nat) (job : Job) (i : Nat) :
    (s.park id job).jobs.get? i = if id = i then some job else s.jobs.get? i :=
  OrderedMap.get?_insert ..

theorem Grows.park (h : Grows s t events) (hintake : t.intake = s.intake) (hseen : t.seen = s.seen)
    (hasked : t.asked = s.asked) (hnext : t.nextJob = s.nextJob) (hjobs : t.jobs = s.jobs)
    (id : Nat) (job : Job) : Moves s (t.park id job) id events (some job) := by
  refine ⟨⟨h.lasting, h.follows, h.record⟩, hintake, hseen, hasked, hnext, ?_, ?_⟩
  · intro i hi
    rw [jobs_park, if_neg hi.symm, hjobs]
  · rw [jobs_park, if_pos rfl]

theorem Grows.moves {r : Session} (h : Grows s r events) (hintake : r.intake = s.intake)
    (hseen : r.seen = s.seen) (hasked : r.asked = s.asked) (hnext : r.nextJob = s.nextJob)
    (hjobs : r.jobs = s.jobs) {more : List Event} {job : Option Job}
    (hmore : Moves r t id more job) : Moves s t id (events ++ more) job := by
  refine ⟨h.trans hmore.toGrows, hmore.intake.trans hintake, hmore.seen.trans hseen,
    hmore.asked.trans hasked, hmore.nextJob.trans hnext, ?_, hmore.job⟩
  intro i hi
  rw [hmore.others i hi, hjobs]

/-- What goes into the record when a call has the index store entries. -/
def storing (id : Nat) (es : List Entry) : List Event :=
  stored (es.map fun e => (.call id, e))

section Reconciling

open Reconciliation (Plan)

variable {request : Reconciliation.Request} {waiting : Reconciliation.Waiting}
  {work : Reconciliation.Work}

/-- A call that waits for the index on behalf of a reconciliation. -/
def applying (s : Session) (request : Reconciliation.Request) (waiting : Reconciliation.Waiting)
    (outer : Option Keeper.Waiting) : Job :=
  ⟨.reconciling request waiting, outer, some (.asked s.base.nextId)⟩

end Reconciling

section Going

end Going

end Session

end LiveIndex.Sharing
