import LiveIndex.Intake.Basic
import LiveIndex.Proofs.Store.OrderedMap

/-! What becomes of the failed changes at the end of a batch. A change whose path is free goes back
into the queue as long as it has tries left; of one path there is one at most, so none of them is in
the way of another. -/

namespace LiveIndex.Intake

variable {ix : Intake}

/-- A failed change that is queued again at the end of a batch. -/
def goesBack (ix : Intake) (c : Change) : Bool :=
  !ix.queue.contains c.path && !decide (ix.options.maxRetries < (c.retries + 1 : Nat))

/-- A failed change that is given up at the end of a batch. -/
def givenUp (ix : Intake) (c : Change) : Bool :=
  !ix.queue.contains c.path && decide (ix.options.maxRetries < (c.retries + 1 : Nat))

def Change.again (c : Change) : Change :=
  { c with retries := c.retries + 1 }

theorem again_le_of_goesBack {c : Change} (h : ix.goesBack c = true) :
    (c.again.retries : Int) ≤ ix.options.maxRetries := by
  rw [goesBack, Bool.and_eq_true, Bool.not_eq_true', Bool.not_eq_true', decide_eq_false_iff_not]
    at h
  exact Int.not_lt.mp h.2

theorem lt_of_givenUp {c : Change} (h : ix.givenUp c = true) :
    ix.options.maxRetries < (c.retries + 1 : Nat) := by
  rw [givenUp, Bool.and_eq_true, decide_eq_true_eq] at h
  exact h.2

/-- A failed change whose path is free goes back or is given up. -/
theorem contains_of_stays {c : Change} (hback : ix.goesBack c = false)
    (hup : ix.givenUp c = false) : ix.queue.contains c.path = true := by
  by_contra hnot
  rw [Bool.not_eq_true] at hnot
  simp only [goesBack, givenUp, hnot, Bool.not_false, Bool.true_and, Bool.not_eq_false']
    at hback hup
  rw [hback] at hup
  cases hup

theorem not_goesBack_of_givenUp {c : Change} (h : ix.givenUp c = true) :
    ix.goesBack c = false := by
  rw [givenUp, Bool.and_eq_true] at h
  rw [goesBack, h.1, h.2]
  rfl

theorem retry_queue (ix : Intake) (c : Change) : (ix.retry c).1.queue =
    if ix.goesBack c then ix.queue.insert c.path c.again else ix.queue := by
  unfold Intake.retry goesBack
  cases ix.queue.contains c.path with
  | true => rfl
  | false =>
    by_cases hmax : ix.options.maxRetries < (c.retries + 1 : Nat)
    · simp only [Bool.false_eq_true, if_false, if_pos hmax, decide_eq_true hmax, Bool.not_true,
        Bool.and_false]
    · simp only [Bool.false_eq_true, if_false, if_neg hmax, decide_eq_false hmax, Bool.not_false,
        Bool.and_self, if_true, Change.again]

theorem retry_missed (ix : Intake) (c : Change) : (ix.retry c).1.missed =
    ix.missed + if ix.givenUp c then 1 else 0 := by
  unfold Intake.retry givenUp
  cases ix.queue.contains c.path with
  | true => rfl
  | false =>
    by_cases hmax : ix.options.maxRetries < (c.retries + 1 : Nat)
    · simp only [Bool.false_eq_true, if_false, if_pos hmax, decide_eq_true hmax, Bool.not_false,
        Bool.and_self, if_true]
    · simp only [Bool.false_eq_true, if_false, if_neg hmax, decide_eq_false hmax, Bool.and_false,
        Nat.add_zero]

theorem retry_options (ix : Intake) (c : Change) : (ix.retry c).1.options = ix.options := by
  unfold Intake.retry
  split
  · rfl
  · split <;> rfl

/-- Whether a change goes back depends on its own path only. -/
theorem contains_retry {c d : Change} (h : c.path ≠ d.path) :
    (ix.retry c).1.queue.contains d.path = ix.queue.contains d.path := by
  rw [retry_queue]
  split
  · rw [OrderedMap.contains_insert, decide_eq_false h, Bool.false_or]
  · rfl

theorem goesBack_retry {c d : Change} (h : c.path ≠ d.path) :
    (ix.retry c).1.goesBack d = ix.goesBack d := by
  rw [goesBack, goesBack, contains_retry h, retry_options]

theorem givenUp_retry {c d : Change} (h : c.path ≠ d.path) :
    (ix.retry c).1.givenUp d = ix.givenUp d := by
  rw [givenUp, givenUp, contains_retry h, retry_options]

theorem path_ne_of_nodup {c : Change} {rest : List Change}
    (h : ((c :: rest).map Change.path).Nodup) : ∀ d ∈ rest, c.path ≠ d.path := by
  intro d hd hpath
  rw [List.map_cons, List.nodup_cons, hpath] at h
  exact h.1 (List.mem_map_of_mem hd)

theorem retryAll_cons (ix : Intake) (c : Change) (rest : List Change) :
    (ix.retryAll (c :: rest)).1 = ((ix.retry c).1.retryAll rest).1 := rfl

theorem retryAll_options (ix : Intake) (failed : List Change) :
    (ix.retryAll failed).1.options = ix.options := by
  induction failed generalizing ix with
  | nil => rfl
  | cons c rest ih => rw [retryAll_cons, ih, retry_options]

theorem values_retryAll {failed : List Change} (h : (failed.map Change.path).Nodup) :
    (ix.retryAll failed).1.queue.values =
      ix.queue.values ++ (failed.filter ix.goesBack).map Change.again := by
  induction failed generalizing ix with
  | nil => exact (List.append_nil _).symm
  | cons c rest ih =>
    have hne := path_ne_of_nodup h
    have hfilter : rest.filter (ix.retry c).1.goesBack = rest.filter ix.goesBack :=
      List.filter_congr fun d hd => goesBack_retry (hne d hd)
    rw [retryAll_cons, ih (List.nodup_cons.mp h).2, hfilter, retry_queue]
    by_cases hback : ix.goesBack c = true
    · -- Nothing of the path is queued, so it goes to the end.
      have hnew : ix.queue.contains c.path = false := by
        rw [goesBack, Bool.and_eq_true, Bool.not_eq_true'] at hback
        exact hback.1
      rw [if_pos hback, List.filter_cons_of_pos hback, OrderedMap.values_insert_of_absent hnew,
        List.append_assoc]
      rfl
    · rw [if_neg hback, List.filter_cons_of_neg hback]

theorem missed_retryAll {failed : List Change} (h : (failed.map Change.path).Nodup) :
    (ix.retryAll failed).1.missed = ix.missed + (failed.filter ix.givenUp).length := by
  induction failed generalizing ix with
  | nil => rfl
  | cons c rest ih =>
    have hne := path_ne_of_nodup h
    have hfilter : rest.filter (ix.retry c).1.givenUp = rest.filter ix.givenUp :=
      List.filter_congr fun d hd => givenUp_retry (hne d hd)
    rw [retryAll_cons, ih (List.nodup_cons.mp h).2, hfilter, retry_missed]
    by_cases hup : ix.givenUp c = true
    · rw [if_pos hup, List.filter_cons_of_pos hup, List.length_cons]
      omega
    · rw [if_neg hup, List.filter_cons_of_neg hup, Nat.add_zero]

/-- At the end of a batch something is queued of the path of each failed change, unless the change
was given up. -/
theorem contains_retryAll {failed : List Change} (h : (failed.map Change.path).Nodup) {c : Change}
    (hc : c ∈ failed) : (ix.retryAll failed).1.queue.contains c.path = !ix.givenUp c := by
  have hother : ∀ (rest : List Change) (ix : Intake), (∀ d ∈ rest, d.path ≠ c.path) →
      (ix.retryAll rest).1.queue.contains c.path = ix.queue.contains c.path := by
    intro rest
    induction rest with
    | nil => exact fun _ _ => rfl
    | cons d rest ih =>
      intro ix hne
      rw [retryAll_cons, ih _ fun e he => hne e (List.mem_cons_of_mem d he),
        contains_retry (hne d List.mem_cons_self)]
  induction failed generalizing ix with
  | nil => exact absurd hc List.not_mem_nil
  | cons d rest ih =>
    have hne := path_ne_of_nodup h
    rw [retryAll_cons]
    rcases List.mem_cons.mp hc with rfl | hc
    · rw [hother rest _ fun e he => (hne e he).symm, retry_queue]
      unfold goesBack givenUp
      cases hin : ix.queue.contains c.path with
      | true => simp only [Bool.not_true, Bool.false_and, Bool.false_eq_true, if_false, hin,
          Bool.not_false]
      | false =>
        simp only [Bool.not_false, Bool.true_and]
        split
        · next hback =>
          rw [OrderedMap.contains_insert, decide_eq_true rfl, Bool.true_or, hback]
        · next hback => rw [hin, Bool.eq_false_iff.mpr hback]
    · rw [ih (List.nodup_cons.mp h).2 hc, givenUp_retry (hne c hc)]

end LiveIndex.Intake
