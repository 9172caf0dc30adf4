import LiveIndex.Proofs.Intake.Steps
import Mathlib.Data.List.Nodup
import Mathlib.Data.List.Pairwise

/-! An account of every change that was ever queued. A change is still queued, or in the batch that
is being applied, or was applied, or has left without that: because a newer one of its path is
queued, or because it was given up. -/

namespace LiveIndex.Intake

/-- A change as it was queued first. -/
def Change.origin (c : Change) : Change :=
  { c with retries := 0 }

theorem origin_of_fresh {c : Change} (h : c.retries = 0) : c.origin = c := by
  rw [Change.origin, ← h]

/-- The changes that were queued when they arrived. -/
def entered (T : List Event) : List Change :=
  T.filterMap fun
    | .queued c => some c
    | _ => none

/-- The changes of all calls that returned. -/
def appliedIn (T : List Event) : List Change :=
  T.flatMap fun
    | .applied calls => calls
    | _ => []

/-- The failed calls that handed a change over. -/
def failures (T : List Event) (c : Change) : Nat :=
  T.countP fun
    | .failed calls => calls.any fun d => d.origin = c
    | _ => false

namespace Session

/-- The changes that an intake has in its queue and in the batch that it applies. -/
def held (s : Session) : List Change :=
  s.intake.queue.values ++ s.stages.flatMap Stage.all

theorem held_of_stage {s : Session} {g : Stage} (h : s.stages = [g]) :
    s.held = s.intake.queue.values ++ g.all := by
  rw [held, h, List.flatMap_singleton]

theorem held_of_current {s : Session} {g : Stage} (h : s.stages = [g]) {c : Change}
    (hc : c ∈ g.current) : c ∈ s.held := by
  rw [held_of_stage h, Stage.all]
  exact List.mem_append_right _ (List.mem_append_left _ (List.mem_append_right _ hc))

/-- The changes that one state holds and another neither holds nor has applied. -/
def left (s t : Session) : List Change :=
  s.held.filter fun c => c.origin ∉ (t.held ++ appliedIn t.trace).map Change.origin

end Session

/-- A session with an account of the changes that have left it without being applied. -/
structure Ledger where
  session : Session
  superseded : List Change
  dropped : List Change

/-- Where a change can stand. -/
inductive Standing
  | queued
  | applying
  | applied
  | superseded
  | dropped
  deriving DecidableEq

def Standing.every : List Standing :=
  [queued, applying, applied, superseded, dropped]

theorem Standing.mem_every (standing : Standing) : standing ∈ every := by
  cases standing <;> decide

namespace Ledger

def fresh (root : String) (options : Options) : Ledger :=
  ⟨.fresh root options, [], []⟩

/-- Of what leaves, that is superseded of whose path something is queued then. -/
def after (l : Ledger) (t : Session) : Ledger where
  session := t
  superseded := l.superseded ++ (l.session.left t).filter fun c => t.intake.queue.contains c.path
  dropped := l.dropped ++ (l.session.left t).filter fun c => !t.intake.queue.contains c.path

def step (l : Ledger) (a : Action) : Ledger :=
  l.after (l.session.step a)

def run (l : Ledger) (actions : List Action) : Ledger :=
  actions.foldl step l

def changes (l : Ledger) : Standing → List Change
  | .queued => l.session.intake.queue.values
  | .applying => l.session.stages.flatMap Stage.all
  | .applied => appliedIn l.session.trace
  | .superseded => l.superseded
  | .dropped => l.dropped

theorem run_session (l : Ledger) (actions : List Action) :
    (l.run actions).session = l.session.run actions := by
  induction actions generalizing l with
  | nil => rfl
  | cons a actions ih => exact ih (l.step a)

end Ledger

section Accounts

variable {α β : Type} [DecidableEq β]

/-- What was there and is not there any more, if what is there now are the rest of it and what came
anew. -/
theorem filter_gone_perm {f : α → β} {before kept gone new after : List α}
    (hsplit : before.Perm (kept ++ gone)) (hafter : (after.map f).Perm ((kept ++ new).map f))
    (hnodup : ((before ++ new).map f).Nodup) :
    (before.filter fun c => f c ∉ after.map f).Perm gone := by
  have hnodup : (kept.map f ++ gone.map f ++ new.map f).Nodup := by
    have hall := ((hsplit.append_right new).map f).nodup_iff.mp hnodup
    rwa [List.map_append, List.map_append] at hall
  refine (hsplit.filter _).trans ?_
  rw [List.filter_append]
  have hkept : kept.filter (fun c => f c ∉ after.map f) = [] := by
    refine List.filter_eq_nil_iff.mpr fun c hc hnot => ?_
    rw [decide_eq_true_eq] at hnot
    refine hnot (hafter.mem_iff.mpr ?_)
    rw [List.map_append]
    exact List.mem_append_left _ (List.mem_map_of_mem hc)
  have hgone : gone.filter (fun c => f c ∉ after.map f) = gone := by
    refine List.filter_eq_self.mpr fun c hc => decide_eq_true ?_
    intro hin
    rw [hafter.mem_iff, List.map_append, List.mem_append] at hin
    have hc := List.mem_map_of_mem (f := f) hc
    rcases hin with hin | hin
    · exact (List.nodup_append.mp (List.nodup_append.mp hnodup).1).2.2 _ hin _ hc rfl
    · exact (List.nodup_append.mp hnodup).2.2 _ (List.mem_append_right _ hc) _ hin rfl
  rw [hkept, hgone, List.nil_append]

end Accounts

section Traces

variable {T T' : List Event}

theorem mem_entered {c : Change} : c ∈ entered T ↔ .queued c ∈ T := by
  unfold entered
  rw [List.mem_filterMap]
  constructor
  · rintro ⟨e, he, hc⟩
    cases e <;> cases hc
    exact he
  · intro hc
    exact ⟨_, hc, rfl⟩

theorem entered_append (T T' : List Event) : entered (T ++ T') = entered T ++ entered T' :=
  List.filterMap_append

theorem appliedIn_append (T T' : List Event) : appliedIn (T ++ T') = appliedIn T ++ appliedIn T' :=
  List.flatMap_append

theorem failures_append (T T' : List Event) (c : Change) :
    failures (T ++ T') c = failures T c + failures T' c :=
  List.countP_append

/-- What of a call is applied when it returns. -/
def applying (calls : List Change) : Except Failure Unit → List Change
  | .ok _ => calls
  | .error _ => []

theorem applying_or_failing (calls : List Change) (result : Except Failure Unit) :
    (failing calls result ++ applying calls result) = calls := by
  cases result with
  | ok _ => rfl
  | error _ => exact List.append_nil calls

/-- A batch is what waits, what has failed so far, and what comes of its current call. -/
theorem Stage.all_perm (g : Stage) (result : Except Failure Unit) :
    g.all.Perm (g.waiting ++ (g.failed ++ failing g.current result) ++
      applying g.current result) := by
  refine List.perm_iff_count.mpr fun x => ?_
  have hcurrent := congrArg (List.count x) (applying_or_failing g.current result)
  simp only [Stage.all, List.count_append] at hcurrent ⊢
  omega

/-- With its next call a batch has what it had, except for what was applied by the last one. -/
theorem Stage.next_perm {g : Stage} {c : Change} {rest : List Change} (h : g.waiting = c :: rest)
    (result : Except Failure Unit) :
    g.all.Perm (Stage.all ⟨rest, [c], g.failed ++ failing g.current result⟩ ++
      applying g.current result) := by
  refine (g.all_perm result).trans (List.perm_iff_count.mpr fun x => ?_)
  simp only [Stage.all, h, List.count_append, List.count_cons, List.count_nil]
  omega

/-- When nothing waits any more, a batch is what has failed and what was applied last. -/
theorem Stage.last_perm {g : Stage} (h : g.waiting = []) (result : Except Failure Unit) :
    g.all.Perm (g.failed ++ failing g.current result ++ applying g.current result) := by
  have hall := g.all_perm result
  rwa [h, List.nil_append] at hall

theorem Stage.nodup_failed {g : Stage} (h : g.waiting = []) (hapart : (g.all.map Change.path).Nodup)
    (result : Except Failure Unit) :
    ((g.failed ++ failing g.current result).map Change.path).Nodup := by
  rw [((last_perm h result).map Change.path).nodup_iff, List.map_append] at hapart
  exact (List.nodup_append.mp hapart).1

theorem entered_returned (calls : List Change) (result : Except Failure Unit) :
    entered [.returned calls result] = [] := by
  cases result <;> rfl

theorem appliedIn_returned (calls : List Change) (result : Except Failure Unit) :
    appliedIn [.returned calls result] = applying calls result := by
  cases result with
  | ok _ => exact List.append_nil calls
  | error _ => rfl

theorem appliedIn_handed (T : List Event) (calls more : List Change)
    (result : Except Failure Unit) :
    appliedIn (T ++ [.returned calls result, .handed more]) =
      appliedIn T ++ applying calls result := by
  have hsplit : [.returned calls result, .handed more] =
      [.returned calls result] ++ [Event.handed more] := rfl
  rw [hsplit, appliedIn_append, appliedIn_append, appliedIn_returned]
  exact congrArg (appliedIn T ++ ·) (List.append_nil _)

theorem failures_returned_of_mem {calls : List Change} {result : Except Failure Unit} {c : Change}
    (hc : c ∈ failing calls result) : failures [.returned calls result] c.origin = 1 := by
  cases result with
  | ok _ => cases hc
  | error _ =>
    have hany : (calls.any fun d => d.origin = c.origin) = true :=
      List.any_eq_true.mpr ⟨c, hc, decide_eq_true rfl⟩
    exact List.countP_cons_of_pos hany

theorem failures_returned_of_notMem {calls : List Change} {result : Except Failure Unit}
    {c : Change} (hc : c ∉ calls.map Change.origin) : failures [.returned calls result] c = 0 := by
  cases result with
  | ok _ => rfl
  | error _ =>
    have hany : ¬(calls.any fun d => d.origin = c) = true := by
      intro hany
      obtain ⟨d, hd, horigin⟩ := List.any_eq_true.mp hany
      exact hc (of_decide_eq_true horigin ▸ List.mem_map_of_mem hd)
    exact List.countP_cons_of_neg hany

end Traces

namespace Session

variable {s t : Session}

/-- A batch takes what was queued, and nothing else was held. -/
theorem held_taken {calls rest : List Change} (hall : (calls ++ rest).Perm s.intake.queue.values)
    (hqueue : t.intake.queue = .empty) (hbefore : s.stages = [])
    (hafter : t.stages = [⟨rest, calls, []⟩]) : t.held.Perm s.held := by
  have hbatch : Stage.all ⟨rest, calls, []⟩ = rest ++ calls := List.append_nil _
  have hnow : t.held = rest ++ calls := by
    rw [held_of_stage hafter, hqueue, hbatch]
    rfl
  rw [hnow, held, hbefore, List.flatMap_nil, List.append_nil]
  exact List.perm_append_comm.trans hall

/-- After a call what was held is held or applied. -/
theorem held_returned {g : Stage} {c : Change} {rest : List Change}
    (hwaiting : g.waiting = c :: rest) (result : Except Failure Unit)
    (hqueue : t.intake.queue = s.intake.queue) (hbefore : s.stages = [g])
    (hafter : t.stages = [⟨rest, [c], g.failed ++ failing g.current result⟩]) :
    s.held.Perm (t.held ++ applying g.current result) := by
  rw [held_of_stage hbefore, held_of_stage hafter, hqueue, List.append_assoc]
  exact (Stage.next_perm hwaiting result).append_left _

end Session

namespace Ledger

/-- An account that is right: it covers everything that was queued, once each. The changes that are
held have been tried as often as they say. -/
structure Balanced (limit : Int) (l : Ledger) : Prop where
  allowed : l.session.intake.options.maxRetries = limit
  all : ((l.session.held ++ appliedIn l.session.trace ++ l.superseded ++ l.dropped).map
    Change.origin).Perm (entered l.session.trace)
  once : (entered l.session.trace).Nodup
  behind : ∀ g ∈ l.session.stages, ∀ c ∈ g.all, ∀ d, l.session.intake.queue.get? c.path = some d →
    c.arrival < d.arrival
  known : ∀ calls, .failed calls ∈ l.session.trace → ∀ c ∈ calls,
    c.origin ∈ entered l.session.trace
  patient : ∀ c ∈ l.session.held, (c.retries : Int) ≤ limit
  queued : ∀ c ∈ l.session.intake.queue.values, failures l.session.trace c.origin = c.retries
  untried : ∀ g ∈ l.session.stages, ∀ c ∈ g.waiting ++ g.current,
    failures l.session.trace c.origin = c.retries
  tried : ∀ g ∈ l.session.stages, ∀ c ∈ g.failed,
    failures l.session.trace c.origin = c.retries + 1
  superseded : ∀ c ∈ l.superseded, ∃ d ∈ entered l.session.trace, d.path = c.path ∧
    c.arrival < d.arrival
  dropped : ∀ c ∈ l.dropped, (failures l.session.trace c.origin : Int) = limit + 1
  missed : l.session.intake.missed = l.dropped.length

section Moves

variable {limit : Int} {l : Ledger} {t : Session} {g : Stage} {kept gone new applied : List Change}

theorem Balanced.nodup (h : Balanced limit l) :
    ((l.session.held ++ appliedIn l.session.trace ++ l.superseded ++ l.dropped).map
      Change.origin).Nodup :=
  h.all.nodup_iff.mpr h.once

theorem Balanced.entered_of_held (h : Balanced limit l) {c : Change} (hc : c ∈ l.session.held) :
    c.origin ∈ entered l.session.trace := by
  refine h.all.mem_iff.mp (List.mem_map_of_mem ?_)
  simp only [List.append_assoc]
  exact List.mem_append_left _ hc

theorem Balanced.nodup_held (h : Balanced limit l) :
    (l.session.held.map Change.origin).Nodup := by
  have hall := h.nodup
  simp only [List.append_assoc, List.map_append] at hall
  exact (List.nodup_append.mp hall).1

/-- What was applied before is not held any more, so only what is applied now counts. -/
theorem Balanced.left_eq (h : Balanced limit l)
    (happlied : appliedIn t.trace = appliedIn l.session.trace ++ applied) :
    l.session.left t =
      l.session.held.filter fun c => c.origin ∉ (t.held ++ applied).map Change.origin := by
  refine List.filter_congr fun c hc => decide_eq_decide.mpr (not_congr ?_)
  have hnot : c.origin ∉ (appliedIn l.session.trace).map Change.origin := by
    intro hin
    have hall := h.nodup
    simp only [List.append_assoc, List.map_append] at hall
    exact (List.nodup_append.mp hall).2.2 _ (List.mem_map_of_mem hc) _
      (List.mem_append_left _ hin) rfl
  simp only [happlied, List.map_append, List.mem_append]
  tauto

/-- After a move the account covers what it covered and what came, and what is gone has left. -/
theorem Balanced.moved (h : Balanced limit l) (kept gone new applied : List Change)
    (hentered : entered t.trace = entered l.session.trace ++ new)
    (happlied : appliedIn t.trace = appliedIn l.session.trace ++ applied)
    (horigin : new.map Change.origin = new) (honce : (entered t.trace).Nodup)
    (hsplit : l.session.held.Perm (kept ++ gone))
    (hafter : ((t.held ++ applied).map Change.origin).Perm ((kept ++ new).map Change.origin)) :
    (l.session.left t).Perm gone ∧
      ((t.held ++ appliedIn t.trace ++ (l.after t).superseded ++ (l.after t).dropped).map
        Change.origin).Perm (entered t.trace) := by
  rw [hentered] at honce
  have hbefore : ((l.session.held ++ new).map Change.origin).Nodup := by
    rw [List.map_append, horigin]
    refine List.nodup_append.mpr ⟨h.nodup_held, (List.nodup_append.mp honce).2.1, ?_⟩
    intro x hx y hy hxy
    obtain ⟨c, hc, rfl⟩ := List.mem_map.mp hx
    exact (List.nodup_append.mp honce).2.2 _ (h.entered_of_held hc) y hy hxy
  have hleft : (l.session.left t).Perm gone := by
    rw [h.left_eq happlied]
    exact filter_gone_perm hsplit hafter hbefore
  refine ⟨hleft, ?_⟩
  have hfilters := (List.filter_append_perm (fun c : Change => t.intake.queue.contains c.path)
    (l.session.left t)).map Change.origin
  -- Every change is counted as often on both sides.
  refine List.perm_iff_count.mpr fun x => ?_
  have hall := h.all.count_eq x
  have hsplit := (hsplit.map Change.origin).count_eq x
  have hafter := hafter.count_eq x
  have hleft := (hleft.map Change.origin).count_eq x
  have hfilters := hfilters.count_eq x
  simp only [List.map_append, List.count_append, hentered, happlied, horigin, Ledger.after]
    at hall hsplit hafter hleft hfilters ⊢
  omega

/-- A move after which no change is new and none has left, except that some may be applied. -/
theorem Balanced.moved_kept (h : Balanced limit l) (applied : List Change)
    (hentered : entered t.trace = entered l.session.trace)
    (happlied : appliedIn t.trace = appliedIn l.session.trace ++ applied)
    (hheld : (t.held ++ applied).Perm l.session.held) : (l.session.left t).Perm [] ∧
      ((t.held ++ appliedIn t.trace ++ (l.after t).superseded ++ (l.after t).dropped).map
        Change.origin).Perm (entered t.trace) := by
  refine h.moved l.session.held [] [] applied ?_ happlied rfl ?_ ?_ ?_
  · rw [hentered, List.append_nil]
  · rw [hentered]
    exact h.once
  · rw [List.append_nil]
  · rw [List.append_nil]
    exact hheld.map Change.origin

/-- What has to be right of a move with which some changes leave: how often each change has been
tried, which ones are newer, and why those that leave do so. -/
structure Fair (limit : Int) (l : Ledger) (t : Session) (gone : List Change) : Prop where
  once : (entered t.trace).Nodup
  sub : entered l.session.trace ⊆ entered t.trace
  options : t.intake.options = l.session.intake.options
  behind : ∀ g ∈ t.stages, ∀ c ∈ g.all, ∀ d, t.intake.queue.get? c.path = some d →
    c.arrival < d.arrival
  failed : ∀ calls, .failed calls ∈ t.trace → .failed calls ∈ l.session.trace ∨
    ∀ c ∈ calls, c ∈ l.session.held
  patient : ∀ c ∈ t.held, (c.retries : Int) ≤ limit
  queued : ∀ c ∈ t.intake.queue.values, failures t.trace c.origin = c.retries
  untried : ∀ g ∈ t.stages, ∀ c ∈ g.waiting ++ g.current, failures t.trace c.origin = c.retries
  tried : ∀ g ∈ t.stages, ∀ c ∈ g.failed, failures t.trace c.origin = c.retries + 1
  superseded : ∀ c ∈ gone, t.intake.queue.contains c.path = true →
    ∃ d ∈ entered t.trace, d.path = c.path ∧ c.arrival < d.arrival
  dropped : ∀ c ∈ gone, t.intake.queue.contains c.path = false →
    (failures t.trace c.origin : Int) = limit + 1
  still : ∀ c ∈ l.dropped, failures t.trace c.origin = failures l.session.trace c.origin
  missed : t.intake.missed = l.session.intake.missed +
    (gone.filter fun c => !t.intake.queue.contains c.path).length

/-- A fair move keeps the account right. -/
theorem Balanced.next (h : Balanced limit l)
    (hmoved : (l.session.left t).Perm gone ∧
      ((t.held ++ appliedIn t.trace ++ (l.after t).superseded ++ (l.after t).dropped).map
        Change.origin).Perm (entered t.trace))
    (hfair : Fair limit l t gone) : Balanced limit (l.after t) := by
  obtain ⟨hleft, hall⟩ := hmoved
  refine ⟨?allowed, hall, hfair.once, hfair.behind, ?known, hfair.patient, hfair.queued,
    hfair.untried, hfair.tried, ?superseded, ?dropped, ?missed⟩
  case allowed =>
    change t.intake.options.maxRetries = limit
    rw [hfair.options, h.allowed]
  case known =>
    intro calls hcalls c hc
    rcases hfair.failed calls hcalls with hcalls | hheld
    · exact hfair.sub (h.known calls hcalls c hc)
    · exact hfair.sub (h.entered_of_held (hheld c hc))
  case superseded =>
    intro c hc
    rcases List.mem_append.mp hc with hc | hc
    · obtain ⟨d, hd, hpath, hnewer⟩ := h.superseded c hc
      exact ⟨d, hfair.sub hd, hpath, hnewer⟩
    · obtain ⟨hc, hin⟩ := List.mem_filter.mp hc
      exact hfair.superseded c (hleft.mem_iff.mp hc) hin
  case dropped =>
    intro c hc
    rcases List.mem_append.mp hc with hc | hc
    · change (failures t.trace c.origin : Int) = limit + 1
      rw [hfair.still c hc, h.dropped c hc]
    · obtain ⟨hc, hin⟩ := List.mem_filter.mp hc
      exact hfair.dropped c (hleft.mem_iff.mp hc) ((Bool.not_eq_true' _).mp hin)
  case missed =>
    have hlength := (hleft.filter fun c => !t.intake.queue.contains c.path).length_eq
    change t.intake.missed = (l.dropped ++ _).length
    rw [List.length_append, hlength, hfair.missed, h.missed]

/-- A move with which nothing leaves, and after which what is held has been tried as often as it
says, is fair. -/
theorem Balanced.fair_kept (h : Balanced limit l)
    (hentered : entered t.trace = entered l.session.trace)
    (hoptions : t.intake.options = l.session.intake.options)
    (hmissed : t.intake.missed = l.session.intake.missed) (hheld : t.held ⊆ l.session.held)
    (hbehind : ∀ g ∈ t.stages, ∀ c ∈ g.all, ∀ d, t.intake.queue.get? c.path = some d →
      c.arrival < d.arrival)
    (hfailed : ∀ calls, .failed calls ∈ t.trace → .failed calls ∈ l.session.trace ∨
      ∀ c ∈ calls, c ∈ l.session.held)
    (hqueued : ∀ c ∈ t.intake.queue.values, failures t.trace c.origin = c.retries)
    (huntried : ∀ g ∈ t.stages, ∀ c ∈ g.waiting ++ g.current,
      failures t.trace c.origin = c.retries)
    (htried : ∀ g ∈ t.stages, ∀ c ∈ g.failed, failures t.trace c.origin = c.retries + 1)
    (hstill : ∀ c ∈ l.dropped, failures t.trace c.origin = failures l.session.trace c.origin) :
    Fair limit l t [] where
  once := hentered ▸ h.once
  sub := hentered ▸ List.Subset.refl _
  options := hoptions
  behind := hbehind
  failed := hfailed
  patient := fun c hc => h.patient c (hheld hc)
  queued := hqueued
  untried := huntried
  tried := htried
  superseded := fun _ hc => absurd hc List.not_mem_nil
  dropped := fun _ hc => absurd hc List.not_mem_nil
  still := hstill
  missed := hmissed

theorem failures_arrivals {arrivals : List Event}
    (h : ∀ e ∈ arrivals, ∃ n kind path, e = .arrived n kind path) (T : List Event) (c : Change) :
    failures (T ++ arrivals) c = failures T c := by
  have hnone : failures arrivals c = 0 := by
    refine List.countP_eq_zero.mpr fun e he => ?_
    obtain ⟨n, kind, path, rfl⟩ := h e he
    exact Bool.false_ne_true
  rw [failures_append, hnone, Nat.add_zero]

theorem entered_arrivals {arrivals : List Event}
    (h : ∀ e ∈ arrivals, ∃ n kind path, e = .arrived n kind path) (T : List Event) :
    entered (T ++ arrivals) = entered T ∧ appliedIn (T ++ arrivals) = appliedIn T := by
  have hentered : entered arrivals = [] := by
    refine List.filterMap_eq_nil_iff.mpr fun e he => ?_
    obtain ⟨n, kind, path, rfl⟩ := h e he
    rfl
  have happlied : appliedIn arrivals = [] := by
    refine List.flatMap_eq_nil_iff.mpr fun e he => ?_
    obtain ⟨n, kind, path, rfl⟩ := h e he
    rfl
  rw [entered_append, hentered, appliedIn_append, happlied, List.append_nil, List.append_nil]
  exact ⟨rfl, rfl⟩

/-- With a change that is queued one more was entered, and nothing else was applied or has failed. -/
theorem entered_queued {arrivals : List Event}
    (h : ∀ e ∈ arrivals, ∃ n kind path, e = .arrived n kind path) (T : List Event) (c : Change) :
    entered (T ++ arrivals ++ [.queued c]) = entered T ++ [c] ∧
      appliedIn (T ++ arrivals ++ [.queued c]) = appliedIn T ∧
      ∀ d, failures (T ++ arrivals ++ [.queued c]) d = failures T d := by
  obtain ⟨hentered, happlied⟩ := entered_arrivals h T
  refine ⟨?_, ?_, fun d => ?_⟩
  · rw [entered_append, hentered]
    rfl
  · rw [appliedIn_append, happlied]
    exact List.append_nil _
  · rw [failures_append, failures_arrivals h]
    rfl

theorem failed_of_arrivals {arrivals : List Event}
    (h : ∀ e ∈ arrivals, ∃ n kind path, e = .arrived n kind path) {T : List Event}
    {calls : List Change} (hcalls : .failed calls ∈ T ++ arrivals) : .failed calls ∈ T := by
  rcases List.mem_append.mp hcalls with hcalls | hcalls
  · exact hcalls
  · obtain ⟨n, kind, path, he⟩ := h _ hcalls
    cases he

theorem Balanced.nothing (h : Balanced limit l)
    (hoptions : t.intake.options = l.session.intake.options)
    {arrivals : List Event} (harrivals : ∀ e ∈ arrivals, ∃ n kind path, e = .arrived n kind path)
    (hqueue : t.intake.queue = l.session.intake.queue)
    (hmissed : t.intake.missed = l.session.intake.missed) (hstages : t.stages = l.session.stages)
    (htrace : t.trace = l.session.trace ++ arrivals) : Balanced limit (l.after t) := by
  obtain ⟨hentered, happlied⟩ := entered_arrivals harrivals l.session.trace
  rw [← htrace] at hentered happlied
  have hheld : t.held = l.session.held := by
    rw [Session.held, hqueue, hstages]
    rfl
  have hfailures : ∀ c, failures t.trace c = failures l.session.trace c := by
    intro c
    rw [htrace, failures_arrivals harrivals]
  have hmoved := h.moved_kept [] hentered (by rw [happlied, List.append_nil])
    (by rw [hheld, List.append_nil])
  refine h.next hmoved (h.fair_kept hentered hoptions hmissed ?held ?behind ?failed ?queued ?untried
    ?tried ?still)
  case held =>
    rw [hheld]
    exact List.Subset.refl _
  case behind =>
    rw [hstages, hqueue]
    exact h.behind
  case failed =>
    intro calls hcalls
    rw [htrace] at hcalls
    exact .inl (failed_of_arrivals harrivals hcalls)
  case queued =>
    intro c hc
    rw [hqueue] at hc
    rw [hfailures, h.queued c hc]
  case untried =>
    intro g hg c hc
    rw [hstages] at hg
    rw [hfailures, h.untried g hg c hc]
  case tried =>
    intro g hg c hc
    rw [hstages] at hg
    rw [hfailures, h.tried g hg c hc]
  case still => exact fun c _ => hfailures c.origin

/-- A change that was never queued has never failed. -/
theorem Balanced.failures_new (h : Balanced limit l) {c : Change}
    (hc : c ∉ entered l.session.trace) : failures l.session.trace c = 0 := by
  refine List.countP_eq_zero.mpr fun e he => ?_
  cases e with
  | failed calls =>
    intro hany
    obtain ⟨d, hd, horigin⟩ := List.any_eq_true.mp hany
    exact hc (of_decide_eq_true horigin ▸ h.known calls he d hd)
  | arrived | queued | begun | handed | applied => exact Bool.false_ne_true

/-- What is queued of a path, if all stands under its path. -/
theorem of_mem_filter_path {queue : OrderedMap String Change}
    (hpaths : ∀ path d, queue.get? path = some d → d.path = path) {path : String} {d : Change}
    (hd : d ∈ (queue.filter fun p _ => p = path).values) : d.path = path ∧ d ∈ queue.values := by
  obtain ⟨kv, hkv, rfl⟩ := List.mem_map.mp hd
  obtain ⟨hkv, hpath⟩ := List.mem_filter.mp hkv
  refine ⟨?_, List.mem_map_of_mem hkv⟩
  rw [hpaths kv.1 kv.2 (OrderedMap.get?_of_mem hkv)]
  exact of_decide_eq_true hpath

/-- A change that is queued joins what is held and takes the place of what is queued of its path. -/
theorem held_insert {c : Change} (hqueue : t.intake.queue = l.session.intake.queue.insert c.path c)
    (hstages : t.stages = l.session.stages) :
    let kept := (l.session.intake.queue.erase c.path).values ++ l.session.stages.flatMap Stage.all
    t.held.Perm (c :: kept) ∧ l.session.held.Perm
      (kept ++ (l.session.intake.queue.filter fun path _ => path = c.path).values) := by
  refine ⟨?_, ?_⟩
  · rw [Session.held, hqueue, hstages]
    exact (OrderedMap.values_insert_perm ..).append_right _
  · refine ((OrderedMap.values_erase_perm _ c.path).append_right _).trans ?_
    rw [List.append_assoc, List.append_assoc]
    exact List.perm_append_comm.append_left _

/-- A change is queued in place of the one of its path that was queued. -/
theorem Balanced.enqueued (h : Balanced limit l) (hlimit : 0 ≤ limit)
    (hpaths : ∀ path d, l.session.intake.queue.get? path = some d → d.path = path)
    (hoptions : t.intake.options = l.session.intake.options) {c : Change} {arrivals : List Event}
    (harrivals : ∀ e ∈ arrivals, ∃ n kind path, e = .arrived n kind path) (hretries : c.retries = 0)
    (hnewer : ∀ q, .queued q ∈ l.session.trace → q.path = c.path → q.arrival < c.arrival)
    (hqueue : t.intake.queue = l.session.intake.queue.insert c.path c)
    (hmissed : t.intake.missed = l.session.intake.missed) (hstages : t.stages = l.session.stages)
    (htrace : t.trace = l.session.trace ++ arrivals ++ [.queued c]) :
    Balanced limit (l.after t) := by
  have horigin := origin_of_fresh hretries
  obtain ⟨hentered, happlied, hfailures⟩ := entered_queued harrivals l.session.trace c
  rw [← htrace] at hentered happlied hfailures
  -- All that is held of the path is older.
  have holder : ∀ d ∈ l.session.held, d.path = c.path → d.arrival < c.arrival := fun d hd hpath =>
    hnewer d.origin (mem_entered.mp (h.entered_of_held hd)) hpath
  have hnew : c ∉ entered l.session.trace := fun hc =>
    absurd (hnewer c (mem_entered.mp hc) rfl) (Nat.lt_irrefl _)
  have honce : (entered t.trace).Nodup := by
    rw [hentered]
    exact List.Nodup.append h.once (List.nodup_singleton c)
      (List.disjoint_singleton.mpr hnew)
  obtain ⟨hheld, hsplit⟩ := held_insert hqueue hstages
  have hmoved := h.moved _ _ [c] [] hentered (by rw [happlied, List.append_nil])
    (congrArg (· :: []) horigin) honce hsplit
    (by
      rw [List.append_nil]
      exact (hheld.trans (List.perm_append_singleton c _).symm).map Change.origin)
  -- What is gone stood under the path of the change.
  have hgone : ∀ d ∈ (l.session.intake.queue.filter fun path _ => path = c.path).values,
      d.path = c.path ∧ d ∈ l.session.held := by
    intro d hd
    obtain ⟨hpath, hqueued⟩ := of_mem_filter_path hpaths hd
    exact ⟨hpath, List.mem_append_left _ hqueued⟩
  have hcontains : t.intake.queue.contains c.path = true := by
    rw [hqueue, OrderedMap.contains_insert, decide_eq_true rfl, Bool.true_or]
  have hmem : ∀ d ∈ t.held, d = c ∨ d ∈ l.session.held := by
    intro d hd
    rcases List.mem_cons.mp (hheld.mem_iff.mp hd) with rfl | hd
    · exact .inl rfl
    · exact .inr (hsplit.mem_iff.mpr (List.mem_append_left _ hd))
  refine h.next hmoved ⟨honce, ?sub, hoptions, ?behind, ?failed, ?patient, ?queued, ?untried,
    ?tried, ?superseded, ?dropped, ?still, ?missed⟩
  case sub =>
    rw [hentered]
    exact fun _ hd => List.mem_append_left _ hd
  case behind =>
    intro g hg x hx d hd
    rw [hstages] at hg
    rw [hqueue, OrderedMap.get?_insert] at hd
    split at hd
    · next hpath =>
      cases hd
      exact holder x (List.mem_append_right _ (List.mem_flatMap.mpr ⟨g, hg, hx⟩)) hpath.symm
    · exact h.behind g hg x hx d hd
  case failed =>
    intro calls hcalls
    rw [htrace] at hcalls
    rcases List.mem_append.mp hcalls with hcalls | hcalls
    · exact .inl (failed_of_arrivals harrivals hcalls)
    · cases List.mem_singleton.mp hcalls
  case patient =>
    intro d hd
    rcases hmem d hd with rfl | hd
    · rw [hretries]
      exact hlimit
    · exact h.patient d hd
  case queued =>
    intro d hd
    rw [hfailures]
    rw [hqueue] at hd
    rcases List.mem_cons.mp ((OrderedMap.values_insert_perm ..).mem_iff.mp hd) with rfl | hd
    · rw [horigin, h.failures_new hnew, hretries]
    · exact h.queued d ((OrderedMap.values_erase_perm _ c.path).mem_iff.mpr
        (List.mem_append_left _ hd))
  case untried =>
    intro g hg d hd
    rw [hstages] at hg
    rw [hfailures, h.untried g hg d hd]
  case tried =>
    intro g hg d hd
    rw [hstages] at hg
    rw [hfailures, h.tried g hg d hd]
  case superseded =>
    intro d hd _
    obtain ⟨hpath, hd⟩ := hgone d hd
    refine ⟨c, ?_, hpath.symm, holder d hd hpath⟩
    rw [hentered]
    exact List.mem_append_right _ (List.mem_singleton_self c)
  case dropped =>
    intro d hd hnot
    rw [(hgone d hd).1, hcontains] at hnot
    cases hnot
  case still => exact fun d _ => hfailures d.origin
  case missed =>
    -- Nothing counts as missed, for the path is queued.
    have hnone : (l.session.intake.queue.filter fun path _ => path = c.path).values.filter
        (fun d => !t.intake.queue.contains d.path) = [] := by
      refine List.filter_eq_nil_iff.mpr fun d hd => ?_
      rw [(hgone d hd).1, hcontains]
      exact Bool.false_ne_true
    rw [hnone, hmissed]
    rfl

/-- A batch takes all that is queued. -/
theorem Balanced.taken (h : Balanced limit l)
    (hoptions : t.intake.options = l.session.intake.options)
    {calls rest : List Change} (hall : (calls ++ rest).Perm l.session.intake.queue.values)
    (hqueue : t.intake.queue = .empty) (hmissed : t.intake.missed = l.session.intake.missed)
    (hbefore : l.session.stages = []) (hstages : t.stages = [⟨rest, calls, []⟩])
    (htrace : t.trace = l.session.trace ++ [.begun, .handed calls]) :
    Balanced limit (l.after t) := by
  have hentered : entered t.trace = entered l.session.trace := by
    rw [htrace, entered_append]
    exact List.append_nil _
  have happlied : appliedIn t.trace = appliedIn l.session.trace := by
    rw [htrace, appliedIn_append]
    exact List.append_nil _
  have hfailures : ∀ c, failures t.trace c = failures l.session.trace c := by
    intro c
    rw [htrace, failures_append]
    rfl
  have hheld : t.held.Perm l.session.held := Session.held_taken hall hqueue hbefore hstages
  have hmoved := h.moved_kept [] hentered (by rw [happlied, List.append_nil])
    (by rwa [List.append_nil])
  refine h.next hmoved (h.fair_kept hentered hoptions hmissed hheld.subset ?behind ?failed ?queued
    ?untried ?tried ?still)
  case behind =>
    intro g _ c _ d hd
    rw [hqueue] at hd
    cases hd
  case failed =>
    intro failed hfailed
    rw [htrace] at hfailed
    rcases List.mem_append.mp hfailed with hfailed | hfailed
    · exact .inl hfailed
    · simp at hfailed
  case queued =>
    intro c hc
    rw [hqueue] at hc
    cases hc
  case untried =>
    intro g hg c hc
    rw [hstages] at hg
    cases List.mem_singleton.mp hg
    rw [hfailures]
    exact h.queued c (hall.mem_iff.mp (List.perm_append_comm.mem_iff.mp hc))
  case tried =>
    intro g hg c hc
    rw [hstages] at hg
    cases List.mem_singleton.mp hg
    cases hc
  case still => exact fun c _ => hfailures c.origin

/-- What a call hands over is apart from everything else that is held, and from what was dropped. -/
theorem Balanced.apart (h : Balanced limit l) (hbefore : l.session.stages = [g]) {c : Change}
    (hc : c ∈ l.session.intake.queue.values ++ g.waiting ++ g.failed ++ l.dropped) :
    c.origin ∉ g.current.map Change.origin := by
  have hnodup := h.nodup
  rw [Session.held_of_stage hbefore] at hnodup
  have hperm : (l.session.intake.queue.values ++ g.all ++ appliedIn l.session.trace ++
      l.superseded ++ l.dropped).Perm
        (g.current ++ (l.session.intake.queue.values ++ g.waiting ++ g.failed ++ l.dropped) ++
          (appliedIn l.session.trace ++ l.superseded)) := by
    refine List.perm_iff_count.mpr fun x => ?_
    simp only [Stage.all, List.count_append]
    omega
  have hnodup := (hperm.map Change.origin).nodup_iff.mp hnodup
  rw [List.map_append, List.map_append] at hnodup
  intro hin
  exact (List.nodup_append.mp (List.nodup_append.mp hnodup).1).2.2 _ hin _
    (List.mem_map_of_mem hc) rfl

/-- A failed call counts for what it handed over and for nothing else. -/
theorem Balanced.counted (h : Balanced limit l) (hbefore : l.session.stages = [g])
    (result : Except Failure Unit) (t : Session)
    (hcount : ∀ c, failures t.trace c =
      failures l.session.trace c + failures [.returned g.current result] c) :
    (∀ c ∈ l.session.intake.queue.values ++ g.waiting ++ g.failed ++ l.dropped,
        failures t.trace c.origin = failures l.session.trace c.origin) ∧
      ∀ c ∈ g.failed ++ failing g.current result, failures t.trace c.origin = c.retries + 1 := by
  have hother : ∀ c ∈ l.session.intake.queue.values ++ g.waiting ++ g.failed ++ l.dropped,
      failures t.trace c.origin = failures l.session.trace c.origin := by
    intro c hc
    rw [hcount, failures_returned_of_notMem (h.apart hbefore hc), Nat.add_zero]
  refine ⟨hother, ?_⟩
  have hg : g ∈ l.session.stages := by
    rw [hbefore]
    exact List.mem_singleton_self g
  intro c hc
  rcases List.mem_append.mp hc with hc | hc
  · rw [hother c (List.mem_append_left _ (List.mem_append_right _ hc)), h.tried g hg c hc]
  · have hcurrent : c ∈ g.current := by
      rw [← applying_or_failing g.current result]
      exact List.mem_append_left _ hc
    rw [hcount, failures_returned_of_mem hc, h.untried g hg c (List.mem_append_right _ hcurrent)]

theorem failed_of_returned {T : List Event} {calls failed : List Change}
    {result : Except Failure Unit} {more : List Event} (hmore : ∀ calls, .failed calls ∉ more)
    (hfailed : .failed failed ∈ T ++ .returned calls result :: more) :
    .failed failed ∈ T ∨ failed = calls := by
  rcases List.mem_append.mp hfailed with hfailed | hfailed
  · exact .inl hfailed
  · rcases List.mem_cons.mp hfailed with hfailed | hfailed
    · cases result <;> cases hfailed
      exact .inr rfl
    · exact absurd hfailed (hmore failed)

theorem Balanced.returned (h : Balanced limit l)
    (hoptions : t.intake.options = l.session.intake.options) {result : Except Failure Unit}
    {c : Change} {rest : List Change} (hwaiting : g.waiting = c :: rest)
    (hqueue : t.intake.queue = l.session.intake.queue)
    (hmissed : t.intake.missed = l.session.intake.missed) (hbefore : l.session.stages = [g])
    (hstages : t.stages = [⟨rest, [c], g.failed ++ failing g.current result⟩])
    (htrace : t.trace = l.session.trace ++ [.returned g.current result, .handed [c]]) :
    Balanced limit (l.after t) := by
  have htrace' : t.trace = l.session.trace ++ [.returned g.current result] ++ [.handed [c]] := by
    rw [htrace, List.append_assoc]
    rfl
  have hentered : entered t.trace = entered l.session.trace := by
    rw [htrace', entered_append, entered_append, entered_returned]
    exact (List.append_nil _).trans (List.append_nil _)
  have happlied : appliedIn t.trace =
      appliedIn l.session.trace ++ applying g.current result := by
    rw [htrace, appliedIn_handed]
  obtain ⟨hother, htried⟩ := h.counted hbefore result t fun d => by
    rw [htrace', failures_append, failures_append]
    rfl
  have hg : g ∈ l.session.stages := by
    rw [hbefore]
    exact List.mem_singleton_self g
  have hheld : (t.held ++ applying g.current result).Perm l.session.held :=
    (Session.held_returned hwaiting result hqueue hbefore hstages).symm
  have hmoved := h.moved_kept (applying g.current result) hentered happlied hheld
  refine h.next hmoved (h.fair_kept hentered hoptions hmissed ?held ?behind ?failed ?queued ?untried
    ?tried ?still)
  case held => exact fun d hd => hheld.subset (List.mem_append_left _ hd)
  case behind =>
    intro g' hg' d hd
    rw [hstages] at hg'
    cases List.mem_singleton.mp hg'
    rw [hqueue]
    exact h.behind g hg d
      ((Stage.next_perm hwaiting result).mem_iff.mpr (List.mem_append_left _ hd))
  case failed =>
    intro calls hcalls
    rw [htrace] at hcalls
    rcases failed_of_returned (by simp) hcalls with hcalls | rfl
    · exact .inl hcalls
    · exact .inr fun d hd => Session.held_of_current hbefore hd
  case queued =>
    intro d hd
    rw [hqueue] at hd
    rw [hother d (by simp only [List.mem_append]; tauto), h.queued d hd]
  case untried =>
    intro g' hg' d hd
    rw [hstages] at hg'
    cases List.mem_singleton.mp hg'
    have hd : d ∈ g.waiting := by
      rw [hwaiting]
      exact (List.perm_append_singleton c rest).mem_iff.mp hd
    rw [hother d (by simp only [List.mem_append]; tauto),
      h.untried g hg d (List.mem_append_left _ hd)]
  case tried =>
    intro g' hg' d hd
    rw [hstages] at hg'
    cases List.mem_singleton.mp hg'
    exact htried d hd
  case still => exact fun d hd => hother d (List.mem_append_right _ hd)

/-- At the end of a batch that leaves which does not go back into the queue. -/
theorem Balanced.moved_ended (h : Balanced limit l) (hbefore : l.session.stages = [g])
    (hstages : t.stages = []) {fs : List Change} (hbatch : g.all.Perm (fs ++ applied))
    (hvalues : t.intake.queue.values = l.session.intake.queue.values ++
      (fs.filter l.session.intake.goesBack).map Change.again)
    (hentered : entered t.trace = entered l.session.trace)
    (happlied : appliedIn t.trace = appliedIn l.session.trace ++ applied) :
    (l.session.left t).Perm (fs.filter fun c => !l.session.intake.goesBack c) ∧
      ((t.held ++ appliedIn t.trace ++ (l.after t).superseded ++ (l.after t).dropped).map
        Change.origin).Perm (entered t.trace) := by
  have hsplit : l.session.held.Perm ((l.session.intake.queue.values ++
      fs.filter l.session.intake.goesBack ++ applied) ++
        fs.filter fun c => !l.session.intake.goesBack c) := by
    have hfilters := List.filter_append_perm l.session.intake.goesBack fs
    rw [Session.held_of_stage hbefore]
    refine List.perm_iff_count.mpr fun x => ?_
    have hbatch := hbatch.count_eq x
    have hfilters := hfilters.count_eq x
    simp only [List.count_append] at hbatch hfilters ⊢
    omega
  refine h.moved _ _ [] applied ?_ happlied rfl (hentered ▸ h.once) hsplit ?_
  · rw [hentered, List.append_nil]
  · -- A change that goes back is the same but for the count of its tries.
    have hagain : ((fs.filter l.session.intake.goesBack).map Change.again).map Change.origin =
        (fs.filter l.session.intake.goesBack).map Change.origin := by
      rw [List.map_map]
      rfl
    rw [Session.held, hvalues, hstages, List.flatMap_nil, List.append_nil, List.append_nil,
      List.map_append, List.map_append, hagain, List.map_append, List.map_append]

/-- Of what does not go back, that has nothing of its path in the queue which is given up. -/
theorem filter_gone_eq {ix : Intake} {queue : OrderedMap String Change} {fs : List Change}
    (h : ∀ c ∈ fs, queue.contains c.path = !ix.givenUp c) :
    (fs.filter fun c => !ix.goesBack c).filter (fun c => !queue.contains c.path) =
      fs.filter ix.givenUp := by
  rw [List.filter_filter]
  refine List.filter_congr fun c hc => ?_
  rw [h c hc, Bool.not_not]
  cases hup : ix.givenUp c with
  | true =>
    rw [not_goesBack_of_givenUp hup]
    rfl
  | false => rfl

/-- A batch is over: what failed is queued again, or a newer change of its path is queued, or it has
been tried once more than may be. -/
theorem Balanced.ended (h : Balanced limit l)
    (hpaths : ∀ path d, l.session.intake.queue.get? path = some d → d.path = path)
    (hapart : (g.all.map Change.path).Nodup)
    (hoptions : t.intake.options = l.session.intake.options) {result : Except Failure Unit}
    (hwaiting : g.waiting = [])
    (hqueue : t.intake.queue =
      (l.session.intake.retryAll (g.failed ++ failing g.current result)).1.queue)
    (hmissed : t.intake.missed =
      (l.session.intake.retryAll (g.failed ++ failing g.current result)).1.missed)
    (hbefore : l.session.stages = [g]) (hstages : t.stages = [])
    (htrace : t.trace = l.session.trace ++ [.returned g.current result]) :
    Balanced limit (l.after t) := by
  obtain ⟨fs, hfs⟩ : ∃ fs, fs = g.failed ++ failing g.current result := ⟨_, rfl⟩
  rw [← hfs] at hqueue hmissed
  have hentered : entered t.trace = entered l.session.trace := by
    rw [htrace, entered_append, entered_returned, List.append_nil]
  have happlied : appliedIn t.trace =
      appliedIn l.session.trace ++ applying g.current result := by
    rw [htrace, appliedIn_append, appliedIn_returned]
  obtain ⟨hother, htried⟩ := h.counted hbefore result t fun d => by
    rw [htrace, failures_append]
  rw [← hfs] at htried
  have hg : g ∈ l.session.stages := by
    rw [hbefore]
    exact List.mem_singleton_self g
  have hbatch : g.all.Perm (fs ++ applying g.current result) :=
    hfs ▸ Stage.last_perm hwaiting result
  have hnodup : (fs.map Change.path).Nodup := hfs ▸ Stage.nodup_failed hwaiting hapart result
  have hmem : ∀ c ∈ fs, c ∈ g.all ∧ c ∈ l.session.held := by
    intro c hc
    have hc := hbatch.mem_iff.mpr (List.mem_append_left _ hc)
    rw [Session.held_of_stage hbefore]
    exact ⟨hc, List.mem_append_right _ hc⟩
  have hvalues : t.intake.queue.values = l.session.intake.queue.values ++
      (fs.filter l.session.intake.goesBack).map Change.again := by
    rw [hqueue, values_retryAll hnodup]
  have hmoved := h.moved_ended hbefore hstages hbatch hvalues hentered happlied
  have hcontains : ∀ c ∈ fs, t.intake.queue.contains c.path = !l.session.intake.givenUp c := by
    intro c hc
    rw [hqueue, contains_retryAll hnodup hc]
  refine h.next hmoved ⟨hentered ▸ h.once, hentered ▸ List.Subset.refl _, hoptions, ?behind,
    ?failed, ?patient, ?queued, ?untried, ?tried, ?superseded, ?dropped, ?still, ?missed⟩
  case behind | untried | tried =>
    -- No batch is under way any more.
    intro g' hg'
    rw [hstages] at hg'
    cases hg'
  case failed =>
    intro calls hcalls
    rw [htrace] at hcalls
    rcases failed_of_returned (by simp) hcalls with hcalls | rfl
    · exact .inl hcalls
    · exact .inr fun d hd => Session.held_of_current hbefore hd
  case patient =>
    intro c hc
    rw [Session.held, hvalues, hstages, List.flatMap_nil, List.append_nil] at hc
    rcases List.mem_append.mp hc with hc | hc
    · exact h.patient c (List.mem_append_left _ hc)
    · obtain ⟨d, hd, rfl⟩ := List.mem_map.mp hc
      have hagain := again_le_of_goesBack (List.mem_filter.mp hd).2
      rwa [h.allowed] at hagain
  case queued =>
    intro c hc
    rw [hvalues] at hc
    rcases List.mem_append.mp hc with hc | hc
    · rw [hother c (by simp only [List.mem_append]; tauto), h.queued c hc]
    · obtain ⟨d, hd, rfl⟩ := List.mem_map.mp hc
      exact htried d (List.mem_filter.mp hd).1
  case superseded =>
    intro c hc hin
    obtain ⟨hc, hstays⟩ := List.mem_filter.mp hc
    rw [hcontains c hc, Bool.not_eq_true'] at hin
    -- The one in its way was queued while the batch was under way.
    have hqueued := contains_of_stays ((Bool.not_eq_true' _).mp hstays) hin
    rw [OrderedMap.contains_eq_isSome, Option.isSome_iff_exists] at hqueued
    obtain ⟨d, hd⟩ := hqueued
    have hheld : d ∈ l.session.held :=
      List.mem_append_left _ (OrderedMap.mem_values_iff.mpr ⟨c.path, hd⟩)
    refine ⟨d.origin, ?_, hpaths c.path d hd, h.behind g hg c (hmem c hc).1 d hd⟩
    rw [hentered]
    exact h.entered_of_held hheld
  case dropped =>
    intro c hc hout
    obtain ⟨hc, -⟩ := List.mem_filter.mp hc
    rw [hcontains c hc, Bool.not_eq_false'] at hout
    have hover := lt_of_givenUp hout
    have hpatient := h.patient c (hmem c hc).2
    rw [h.allowed] at hover
    rw [htried c hc]
    omega
  case still => exact fun d hd => hother d (List.mem_append_right _ hd)
  case missed => rw [filter_gone_eq hcontains, hmissed, missed_retryAll hnodup]

end Moves

/-- Every step keeps the account right. -/
theorem Balanced.step {limit : Int} {l : Ledger} (h : Balanced limit l) (hlimit : 0 ≤ limit)
    (horder : l.session.Ordered) {a : Action} (ha : a ≠ .begin .destroy) :
    Balanced limit (l.step a) := by
  obtain ⟨hmoves, hoptions, -⟩ := Session.progress_step horder ha
  obtain ⟨⟨stage, hstage, hin⟩, -⟩ := horder
  have hpaths : ∀ path d, l.session.intake.queue.get? path = some d → d.path = path :=
    fun path d hd => (hin.waits path d hd).1
  cases hmoves with
  | nothing arrivals harrivals hqueue hmissed hstages htrace =>
    exact h.nothing hoptions harrivals hqueue hmissed hstages htrace
  | queued c arrivals harrivals hretries hnewer hqueue hmissed hstages htrace =>
    exact h.enqueued hlimit hpaths hoptions harrivals hretries hnewer hqueue hmissed hstages htrace
  | taken calls rest hall hqueue hmissed hbefore hstages htrace =>
    exact h.taken hoptions hall hqueue hmissed hbefore hstages htrace
  | returned g result c rest hwaiting hqueue hmissed hbefore hstages htrace =>
    exact h.returned hoptions hwaiting hqueue hmissed hbefore hstages htrace
  | ended g result hwaiting hqueue hmissed hbefore hstages htrace =>
    have hapart : (g.all.map Change.path).Nodup := by
      rw [hbefore] at hstage
      cases stage with
      | none => cases hstage
      | some g' =>
        cases hstage
        obtain ⟨b, hb⟩ := hin.applying g rfl
        exact hb.apart
    exact h.ended hpaths hapart hoptions hwaiting hqueue hmissed hbefore hstages htrace

theorem balanced_fresh (root : String) (options : Options) :
    Balanced options.maxRetries (fresh root options) := by
  refine ⟨rfl, List.Perm.refl _, List.nodup_nil, ?_, ?_, ?_, ?_, ?_, ?_, ?_, ?_, rfl⟩ <;>
  · intro x hx
    cases hx

theorem Balanced.run {limit : Int} {l : Ledger} (h : Balanced limit l) (hlimit : 0 ≤ limit)
    (horder : l.session.Ordered) {actions : List Action} (hlive : .begin .destroy ∉ actions) :
    Balanced limit (l.run actions) := by
  induction actions generalizing l with
  | nil => exact h
  | cons a actions ih =>
    rw [List.mem_cons, not_or] at hlive
    have ha := Ne.symm hlive.1
    exact ih (h.step hlimit horder ha) (Session.ordered_step horder ha) hlive.2

/-- In a right account every change that was queued stands in one place. -/
theorem Balanced.one_standing {limit : Int} {l : Ledger} (h : Balanced limit l) :
    ((Standing.every.flatMap l.changes).map Change.origin).Perm (entered l.session.trace) ∧
      ∀ c, .queued c ∈ l.session.trace →
        ∃! standing, c ∈ (l.changes standing).map Change.origin := by
  have hall : ((Standing.every.flatMap l.changes).map Change.origin).Perm
      (entered l.session.trace) := by
    refine List.Perm.trans ?_ h.all
    refine List.perm_iff_count.mpr fun x => ?_
    simp only [Standing.every, List.flatMap_cons, List.flatMap_nil, changes, Session.held,
      List.map_append, List.count_append, List.append_nil]
    omega
  refine ⟨hall, ?_⟩
  intro c hc
  have hmem := hall.mem_iff.mpr (mem_entered.mpr hc)
  have hnodup := hall.nodup_iff.mpr h.once
  rw [List.map_flatMap] at hmem hnodup
  -- The lists of all places together hold it, and they repeat nothing.
  obtain ⟨standing, -, hin⟩ := List.mem_flatMap.mp hmem
  refine ⟨standing, hin, ?_⟩
  intro other hother
  by_contra hne
  -- Two places would have the change in common.
  have hsymm : Std.Symm (Function.onFun List.Disjoint fun standing : Standing =>
      (l.changes standing).map Change.origin) := ⟨fun _ _ => List.disjoint_symm⟩
  have hapart := (List.nodup_flatMap.mp hnodup).2.forall (Standing.mem_every other)
    (Standing.mem_every standing) hne
  exact hapart hother hin

/-- Until an intake is ended, every change that was queued is still queued, or in the batch that is
being applied, or applied by a call that returned, or superseded by a later one of its path, or
dropped after the tries that it has, and no call fails for what the index fails with. -/
theorem every_change_accounted (root : String) (options : Options)
    (hlimit : 0 ≤ options.maxRetries) (actions : List Action) (hlive : .begin .destroy ∉ actions) :
    let s := (Session.fresh root options).run actions
    let l := (fresh root options).run actions
    l.session = s ∧
      ((Standing.every.flatMap l.changes).map Change.origin).Perm (entered s.trace) ∧
      (∀ c, .queued c ∈ s.trace → ∃! standing, c ∈ (l.changes standing).map Change.origin) ∧
      (∀ c ∈ l.superseded, ∃ d, .queued d ∈ s.trace ∧ d.path = c.path ∧ c.arrival < d.arrival) ∧
      (∀ c ∈ l.dropped, (failures s.trace c.origin : Int) = options.maxRetries + 1) ∧
      s.intake.missed = l.dropped.length ∧
      ∀ a, a ≠ .begin .destroy → ∃ new, (s.step a).answers = s.answers ++ new ∧
        ∀ id f, (id, .error f) ∈ new → Session.Raises a f := by
  intro s l
  have hsession : l.session = s := run_session _ actions
  have horder : s.Ordered := Session.ordered_run (Session.ordered_fresh root options) hlive
  have hbalanced : Balanced options.maxRetries l :=
    (balanced_fresh root options).run hlimit (Session.ordered_fresh root options) hlive
  obtain ⟨hall, hone⟩ := hbalanced.one_standing
  refine ⟨hsession, ?_, ?_, ?_, ?_, ?_, ?_⟩
  · rw [← hsession]
    exact hall
  · rw [← hsession]
    exact hone
  · intro c hc
    obtain ⟨d, hd, hpath, hnewer⟩ := hbalanced.superseded c hc
    rw [hsession] at hd
    exact ⟨d, mem_entered.mp hd, hpath, hnewer⟩
  · rw [← hsession]
    exact hbalanced.dropped
  · rw [← hsession]
    exact hbalanced.missed
  · intro a ha
    exact (Session.progress_step horder ha).answers

/-- Two removals fail. Of the one a newer change has come meanwhile, the other fails again and is
given up. -/
theorem every_change_accounted_twice :
    let full : Except Failure Unit := .error (.device "disk full")
    let actions : List Action :=
      [ .begin (.change "remove" "/data/p"), .begin (.change "remove" "/data/q"), .begin .flush,
        .resume 2 (.served full), .begin (.change "remove" "/data/p"), .resume 2 (.served full),
        .begin .flush, .resume 4 (.served (.ok ())), .resume 4 (.served full) ]
    let s := (Session.fresh "/data" ⟨300, 1000, 1⟩).run actions
    let l := (fresh "/data" ⟨300, 1000, 1⟩).run actions
    l.superseded = [⟨.remove, "/data/p", none, 0, 1⟩] ∧
      l.dropped = [⟨.remove, "/data/q", none, 1, 3⟩] ∧
      (∃! standing, ⟨.remove, "/data/q", none, 0, 3⟩ ∈ (l.changes standing).map Change.origin) ∧
      (failures s.trace ⟨.remove, "/data/q", none, 0, 3⟩ : Int) = 1 + 1 ∧
      s.intake.missed = 1 := by
  intro full actions s l
  obtain ⟨-, -, hone, -, hdropped, hmissed, -⟩ :=
    every_change_accounted "/data" ⟨300, 1000, 1⟩ (by decide) actions (by simp [actions])
  have hleft : l.dropped = [⟨.remove, "/data/q", none, 1, 3⟩] := by decide
  refine ⟨by decide, hleft, hone _ (by decide), ?_, ?_⟩
  · exact hdropped ⟨.remove, "/data/q", none, 1, 3⟩ (by rw [hleft]; exact List.mem_cons_self)
  · rw [hmissed, hleft]
    rfl

end Ledger

end LiveIndex.Intake
