import LiveIndex.Proofs.Index.Alone
import LiveIndex.Reconciliation.Calls

/-! A reconciliation from its beginning to its end, beside an index that nothing else changes
meanwhile. It stores what is fresh or stale and then removes what is gone, one path after another.
-/

namespace LiveIndex.Reconciliation

open Index (Moment)

/-- An index, and how its reconciliation stands. -/
structure Session where
  base : Index.Session
  turn : Turn Request Waiting Result

namespace Session

def start (base : Index.Session) : Session :=
  ⟨base, begin.turn⟩

def summaryOf : Option (Except Failure Index.Answer) → Except Failure Summary
  | some (.ok (.summary summary)) => .ok summary
  | some (.error f) => .error f
  | _ => .ok .zero

def countOf : Option (Except Failure Index.Answer) → Except Failure Nat
  | some (.ok (.count n)) => .ok n
  | some (.error f) => .error f
  | _ => .ok 0

/-- What the reconciliation waits for is done by the disk or by the index, and it goes on. -/
def step (d : Disk) (f : Filter) (root : String) (s : Session) (m : Moment) : Session :=
  match s.turn with
  | .ask .inventory .scanning =>
    ⟨s.base, (scanned s.base.index.entries (d.inventory f root)).turn⟩
  | .ask (.batch entries) (.storing run count gone) =>
    let base := s.base.call m (.batch entries)
    let answer := base.answer? s.base.nextId
    ⟨base, (stored base.index.entries run count gone (summaryOf answer)).turn⟩
  | .ask (.remove path) (.removing run current gone) =>
    let base := s.base.call m (.remove path)
    let answer := base.answer? s.base.nextId
    ⟨base, (removed base.index.entries run current gone (countOf answer)).turn⟩
  | _ => s

def run (d : Disk) (f : Filter) (root : String) (s : Session) (moments : List Moment) : Session :=
  moments.foldl (step d f root) s

variable {d : Disk} {f : Filter} {root : String}

theorem run_cons (s : Session) (m : Moment) (moments : List Moment) :
    s.run d f root (m :: moments) = (s.step d f root m).run d f root moments := rfl

theorem run_done (base : Index.Session) (result : Except Failure Result) (moments : List Moment) :
    (Session.mk base (.done result)).run d f root moments = ⟨base, .done result⟩ := by
  induction moments with
  | nil => rfl
  | cons m rest ih => exact ih

section Moves

variable {base : Index.Session} {run : Run} {path : String} {gone : List String} {m : Moment}

/-- A run that has one removal more behind it. -/
def counted (run : Run) : Run :=
  { run with result := { run.result with deleted := run.result.deleted + 1 } }

theorem removeGone_absent {indexed : OrderedMap String Entry}
    (hpath : indexed.contains path = false) :
    removeGone indexed run (path :: gone) = removeGone indexed (counted run) gone := by
  rw [removeGone, hpath]
  rfl

theorem removeGone_present {indexed : OrderedMap String Entry}
    (hpath : indexed.contains path = true) :
    (removeGone indexed run (path :: gone)).turn =
      .ask (.remove path) (.removing run path gone) := by
  rw [removeGone, hpath]
  rfl

theorem step_removing (hidle : base.Idle) (hm : m.Bearable) :
    (Session.mk base (.ask (.remove path) (.removing run path gone))).step d f root m =
      ⟨base.call m (.remove path),
        (removeGone (base.call m (.remove path)).index.entries (counted run) gone).turn⟩ := by
  have hanswer := (Index.Session.call_remove hidle hm path).answer
  simp only [step, hanswer, countOf, removed, counted]

theorem step_storing (hidle : base.Idle) (hm : m.Bearable) (entries : List Entry) (count : Nat) :
    let summary := (base.index.upsertAll entries).2.1
    (Session.mk base (.ask (.batch entries) (.storing run count gone))).step d f root m =
      ⟨base.call m (.batch entries),
        (removeGone (base.call m (.batch entries)).index.entries
          { run with result := { run.result with
            added := summary.added, updated := summary.updated } } gone).turn⟩ := by
  intro summary
  have hanswer := (Index.Session.call_batch hidle hm entries).answer
  simp only [step, hanswer, summaryOf, stored]
  rfl

end Moves

/-- The removals take one path after another away, and all of them are counted, also those that
went with a directory above them. -/
theorem run_removeGone {base : Index.Session} (hidle : base.Idle) (run : Run) (gone : List String)
    {moments : List Moment} (hmoments : ∀ m ∈ moments, m.Bearable)
    (hlength : gone.length ≤ moments.length) :
    let t := (Session.mk base (removeGone base.index.entries run gone).turn).run d f root moments
    t.turn = .done (.ok { run.result with deleted := run.result.deleted + gone.length }) ∧
      t.base.Idle ∧ t.base.index.entries = (base.index.removeAll gone).entries := by
  induction gone generalizing base run moments with
  | nil =>
    have hturn : (removeGone base.index.entries run []).turn = .done (.ok run.result) := rfl
    rw [hturn, run_done]
    exact ⟨rfl, hidle, rfl⟩
  | cons path rest ih =>
    rw [List.length_cons, Nat.add_comm rest.length, ← Nat.add_assoc, Index.removeAll_cons]
    cases hpath : base.index.entries.contains path with
    | false =>
      -- No call is made, and no moment passes.
      have habsent : (base.index.removeFamily path).1 = base.index := by
        rw [OrderedMap.contains_eq_isSome, Option.isSome_eq_false_iff, Option.isNone_iff_eq_none]
          at hpath
        rw [Index.removeFamily, hpath]
      rw [removeGone_absent hpath, habsent]
      exact ih hidle (counted run) hmoments (Nat.le_of_succ_le hlength)
    | true =>
      obtain _ | ⟨m, moments⟩ := moments
      · exact absurd hlength (Nat.not_succ_le_zero _)
      have hm := hmoments m List.mem_cons_self
      have hleft := Index.Session.call_remove hidle hm path
      rw [removeGone_present hpath, run_cons, step_removing hidle hm]
      obtain ⟨hdone, hafter, hentries⟩ := ih hleft.idle (counted run)
        (fun m' h => hmoments m' (List.mem_cons_of_mem _ h)) (Nat.le_of_succ_le_succ hlength)
      exact ⟨hdone, hafter, hentries.trans (Index.removeAll_congr hleft.entries rest)⟩

section Scanned

variable {disk indexed : OrderedMap String Entry}

theorem scanned_nothing (htotal : (Plan.between disk indexed).total = 0) :
    (scanned indexed (.ok disk)).turn = .done (.ok .zero) := by
  simp only [scanned]
  rw [if_pos htotal]
  rfl

theorem scanned_removals (htotal : ¬(Plan.between disk indexed).total = 0)
    (hupserts : (Plan.between disk indexed).upserts.isEmpty = true) :
    (scanned indexed (.ok disk)).turn =
      (removeGone indexed ⟨(Plan.between disk indexed).total, .zero⟩
        (Plan.between disk indexed).gone).turn := by
  simp only [scanned]
  rw [if_neg htotal, if_pos hupserts]
  rfl

theorem scanned_upserts (htotal : ¬(Plan.between disk indexed).total = 0)
    (hupserts : ¬(Plan.between disk indexed).upserts.isEmpty = true) :
    (scanned indexed (.ok disk)).turn =
      .ask (.batch (Plan.between disk indexed).upserts)
        (.storing ⟨(Plan.between disk indexed).total, .zero⟩
          (Plan.between disk indexed).upserts.length (Plan.between disk indexed).gone) := by
  simp only [scanned]
  rw [if_neg htotal, if_neg hupserts]
  rfl

/-- A plan that changes nothing has nothing to store and nothing to remove. -/
theorem empty_of_total {plan : Plan} (h : plan.total = 0) : plan.upserts = [] ∧ plan.gone = [] := by
  unfold Plan.total at h
  have hfresh : plan.fresh = [] := List.length_eq_zero_iff.mp (by omega)
  have hstale : plan.stale = [] := List.length_eq_zero_iff.mp (by omega)
  refine ⟨?_, List.length_eq_zero_iff.mp (by omega)⟩
  rw [Plan.upserts, hfresh, hstale]
  exact List.mergeSort_nil

end Scanned

/-- Against a disk that can be scanned, a reconciliation answers with the numbers of what it added
and updated and of all that was gone, and leaves its upserts less what was removed after them. If
there is nothing to change, everything stays as it is. -/
theorem run_start {base : Index.Session} (hidle : base.Idle) {disk : OrderedMap String Entry}
    (hdisk : d.inventory f root = .ok disk) {moments : List Moment}
    (hmoments : ∀ m ∈ moments, m.Bearable)
    (hlength : (Plan.between disk base.index.entries).gone.length + 2 ≤ moments.length) :
    let plan := Plan.between disk base.index.entries
    let batch := base.index.upsertAll plan.upserts
    let t := (start base).run d f root moments
    t.turn = .done (.ok ⟨batch.2.1.added, plan.gone.length, batch.2.1.updated, 0⟩) ∧
      t.base.Idle ∧ t.base.index.entries = (batch.1.removeAll plan.gone).entries ∧
      (plan.total = 0 → t.base = base) := by
  intro plan batch t
  -- One moment is for the scan, one for the batch, and the others are for the removals.
  obtain _ | ⟨m, _ | ⟨m', moments⟩⟩ := moments
  · exact absurd hlength (Nat.not_succ_le_zero _)
  · exact absurd (Nat.le_of_succ_le_succ hlength) (Nat.not_succ_le_zero _)
  have hgone : plan.gone.length ≤ moments.length := Nat.le_of_add_le_add_right hlength
  have hlater : ∀ m ∈ m' :: moments, m.Bearable := fun m h =>
    hmoments m (List.mem_cons_of_mem _ h)
  have hfirst : t = (Session.mk base (scanned base.index.entries (.ok disk)).turn).run d f root
      (m' :: moments) := by
    change ((start base).step d f root m).run d f root (m' :: moments) = _
    rw [← hdisk]
    rfl
  have hempty (h : plan.upserts = []) : batch = (base.index, .zero, []) := by
    change base.index.upsertAll plan.upserts = _
    rw [h]
    rfl
  by_cases htotal : plan.total = 0
  · obtain ⟨hupserts, hnone⟩ := empty_of_total htotal
    rw [hfirst, scanned_nothing htotal, run_done, hempty hupserts, hnone]
    exact ⟨rfl, hidle, rfl, fun _ => rfl⟩
  · by_cases hupserts : plan.upserts.isEmpty = true
    · obtain ⟨hdone, hafter, hentries⟩ := run_removeGone (d := d) (f := f) hidle
        ⟨plan.total, .zero⟩ plan.gone hlater (hgone.trans (Nat.le_succ _))
      rw [hfirst, scanned_removals htotal hupserts, hempty (List.isEmpty_iff.mp hupserts)]
      refine ⟨?_, hafter, hentries, fun h => absurd h htotal⟩
      rw [hdone, Result.zero, Nat.zero_add]
      rfl
    · have hm := hlater m' List.mem_cons_self
      have hleft := Index.Session.call_batch hidle hm plan.upserts
      obtain ⟨hdone, hafter, hentries⟩ := run_removeGone (d := d) (f := f) hleft.idle
        ⟨plan.total, { Result.zero with
          added := batch.2.1.added, updated := batch.2.1.updated }⟩ plan.gone
        (fun m h => hlater m (List.mem_cons_of_mem _ h)) hgone
      rw [hfirst, scanned_upserts htotal hupserts, run_cons, step_storing hidle hm]
      refine ⟨?_, hafter, ?_, fun h => absurd h htotal⟩
      · rw [hdone, Result.zero, Nat.zero_add]
      · rw [hentries]
        exact Index.removeAll_congr hleft.entries plan.gone

end Session

end LiveIndex.Reconciliation
