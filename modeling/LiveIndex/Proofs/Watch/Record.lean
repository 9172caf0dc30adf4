import LiveIndex.Watch.Calls
import Mathlib.Data.List.Induction
import Mathlib.Data.List.Nodup

/-! The record of a watch: what becomes of its events, and how its starts and stops go. What is
pending and whether the watch runs can be read off the record, and each item is allowed by what
comes before it. -/

namespace LiveIndex.Watch

/-- An event that was queued, with the time of that and the ticket of its timer. -/
structure Queued where
  time : Int
  ticket : Nat
  event : Event
  deriving DecidableEq

/-- What happens to a watch and its events. When the timer of an event rings, the event is told, or
dropped where the watch does not run. A start is connected when its backend works. -/
inductive Item
  | queued (q : Queued)
  | emitted (due time : Int) (ticket : Nat) (e : Event)
  | dropped (due time : Int) (ticket : Nat)
  | unwatched (path : String)
  | starting (id : Nat)
  | connected (id : Nat)
  | ready (id : Nat)
  | stopping (id : Nat)
  | failing
  | returned (id : Nat)
  deriving DecidableEq

namespace Item

def queued? : Item → Option Queued
  | queued q => some q
  | _ => none

/-- Whether an item takes a queued event away: its timer has rung, a later event of its path is
queued, its path or one above is not watched any more, or the watch is halted. -/
def ends : Item → Queued → Bool
  | queued p, q => p.event.path = q.event.path
  | emitted _ _ ticket _, q | dropped _ _ ticket, q => ticket = q.ticket
  | unwatched path, q => q.event.path = path || Path.isBeneath path q.event.path
  | stopping _, _ | failing, _ => true
  | _, _ => false

/-- Whether a watch is halted: by a stop or by an error. -/
def halts : Item → Bool
  | stopping _ | failing => true
  | _ => false

def onRunning : Item → Bool → Bool
  | starting _, _ => true
  | i, running => !i.halts && running

def onReady : Item → Bool → Bool
  | ready _, _ => true
  | i, isReady => !i.halts && isReady

/-- The backend goes on after an error, until a stop. -/
def onLinked : Item → Bool → Bool
  | connected _, _ => true
  | stopping _, _ => false
  | _, linked => linked

def onCalled : Item → List Nat → List Nat
  | starting id, called => id :: called
  | i, called => if i.halts then [] else called

end Item

/-- The events that are pending after a record, in the order in which they were queued. -/
def standing (tr : List Item) : List Queued :=
  tr.foldl (fun qs i => qs.filter (fun q => !i.ends q) ++ i.queued?.toList) []

/-- Whether a watch runs after a record. -/
def runs (tr : List Item) : Bool :=
  tr.foldl (fun running i => i.onRunning running) false

/-- Whether a watch is ready after a record. -/
def isReady (tr : List Item) : Bool :=
  tr.foldl (fun ready i => i.onReady ready) false

/-- Whether a backend has been started since it was last stopped. -/
def linked (tr : List Item) : Bool :=
  tr.foldl (fun linked i => i.onLinked linked) false

/-- The starts that nothing has come across: those that were called since the watch was last
halted. -/
def called (tr : List Item) : List Nat :=
  tr.foldl (fun ids i => i.onCalled ids) []

def tickets (tr : List Item) : List Nat :=
  (tr.filterMap Item.queued?).map Queued.ticket

variable {tr a b : List Item} {i : Item} {q : Queued} {id : Nat} {debounce : Int}

theorem standing_concat (tr : List Item) (i : Item) :
    standing (tr ++ [i]) = (standing tr).filter (fun q => !i.ends q) ++ i.queued?.toList :=
  List.foldl_concat ..

theorem runs_concat (tr : List Item) (i : Item) : runs (tr ++ [i]) = i.onRunning (runs tr) :=
  List.foldl_concat ..

theorem isReady_concat (tr : List Item) (i : Item) :
    isReady (tr ++ [i]) = i.onReady (isReady tr) :=
  List.foldl_concat ..

theorem linked_concat (tr : List Item) (i : Item) : linked (tr ++ [i]) = i.onLinked (linked tr) :=
  List.foldl_concat ..

theorem Item.eq_queued (h : i.queued? = some q) : i = .queued q := by
  cases i with
  | queued p =>
    cases h
    rfl
  | _ => cases h

theorem tickets_concat (tr : List Item) (i : Item) :
    tickets (tr ++ [i]) = tickets tr ++ i.queued?.toList.map Queued.ticket := by
  cases i <;> simp [tickets, Item.queued?]

theorem tickets_concat_of (hi : i.queued? = none) : tickets (tr ++ [i]) = tickets tr := by
  rw [tickets_concat, hi, Option.toList_none, List.map_nil, List.append_nil]

theorem standing_concat_of (hi : i.queued? = none) :
    standing (tr ++ [i]) = (standing tr).filter fun q => !i.ends q := by
  rw [standing_concat, hi, Option.toList_none, List.append_nil]

theorem tickets_append (a b : List Item) : tickets (a ++ b) = tickets a ++ tickets b := by
  rw [tickets, List.filterMap_append, List.map_append]
  rfl

/-- A pending event was queued, and nothing has taken it away since. -/
theorem mem_standing_iff : q ∈ standing tr ↔
    ∃ a b, tr = a ++ .queued q :: b ∧ ∀ i ∈ b, i.ends q = false := by
  induction tr using List.reverseRecOn with
  | nil => simp [standing]
  | append_singleton tr i ih =>
    -- The last item has queued the event, or it leaves it where it was.
    rw [standing_concat, List.mem_append, List.mem_filter, ih, Bool.not_eq_true']
    constructor
    · rintro (⟨⟨a, b, rfl, hb⟩, hi⟩ | hq)
      · refine ⟨a, b ++ [i], by rw [List.append_assoc, List.cons_append], fun j hj => ?_⟩
        rcases List.mem_append.mp hj with hj | hj
        · exact hb j hj
        · rwa [List.mem_singleton.mp hj]
      · cases i with
        | queued p =>
          obtain rfl : q = p := List.mem_singleton.mp hq
          exact ⟨tr, [], rfl, fun _ hj => absurd hj List.not_mem_nil⟩
        | _ => cases hq
    · rintro ⟨a, b, htr, hb⟩
      rcases List.eq_nil_or_concat' b with rfl | ⟨b, j, rfl⟩
      · obtain ⟨-, hi⟩ := List.append_inj' htr rfl
        rw [List.singleton_inj.mp hi]
        exact .inr (List.mem_singleton_self q)
      · rw [← List.cons_append, ← List.append_assoc] at htr
        obtain ⟨rfl, hi⟩ := List.append_inj' htr rfl
        obtain rfl := List.singleton_inj.mp hi
        exact .inl ⟨⟨a, b, rfl, fun j hj => hb j (List.mem_append_left _ hj)⟩,
          hb _ (List.mem_append_right _ (List.mem_singleton_self _))⟩

theorem mem_tickets_of_queued (h : .queued q ∈ tr) : q.ticket ∈ tickets tr :=
  List.mem_map_of_mem (List.mem_filterMap.mpr ⟨_, h, rfl⟩)

theorem mem_tickets_of_standing (h : q ∈ standing tr) : q.ticket ∈ tickets tr := by
  obtain ⟨a, b, rfl, -⟩ := mem_standing_iff.mp h
  exact mem_tickets_of_queued (List.mem_append_right _ List.mem_cons_self)

/-- What is pending was pending before, or has been queued since then. -/
theorem standing_append (h : q ∈ standing (a ++ b)) : q ∈ standing a ∨ .queued q ∈ b := by
  induction b using List.reverseRecOn with
  | nil =>
    rw [List.append_nil] at h
    exact .inl h
  | append_singleton b i ih =>
    rw [← List.append_assoc, standing_concat] at h
    rcases List.mem_append.mp h with h | h
    · exact (ih (List.mem_filter.mp h).1).imp_right (List.mem_append_left _)
    · have hi := i.eq_queued (Option.mem_toList.mp h)
      rw [hi]
      exact .inr (List.mem_append_right _ (List.mem_singleton_self _))

/-- After a halt only what has been queued since then is pending. -/
theorem queued_of_standing (hi : i.halts = true) (h : q ∈ standing (a ++ i :: b)) :
    .queued q ∈ b := by
  rw [← List.singleton_append, ← List.append_assoc] at h
  refine (standing_append h).resolve_left fun hbefore => ?_
  rw [standing_concat] at hbefore
  cases i with
  | stopping => simp [Item.ends, Item.queued?] at hbefore
  | failing => simp [Item.ends, Item.queued?] at hbefore
  | _ => cases hi

theorem Item.onRunning_of_halts (hi : i.halts = true) (running : Bool) :
    i.onRunning running = false := by
  cases i <;> first | rfl | cases hi

theorem Item.onReady_of_halts (hi : i.halts = true) (ready : Bool) : i.onReady ready = false := by
  cases i <;> first | rfl | cases hi

/-- A watch that runs after a halt has been started since then. -/
theorem starting_of_runs (hi : i.halts = true) (h : runs (a ++ i :: b) = true) :
    ∃ id, .starting id ∈ b := by
  induction b using List.reverseRecOn with
  | nil =>
    rw [runs_concat, i.onRunning_of_halts hi] at h
    cases h
  | append_singleton b j ih =>
    rw [← List.cons_append, ← List.append_assoc, runs_concat] at h
    cases j with
    | starting id => exact ⟨id, List.mem_append_right _ (List.mem_singleton_self _)⟩
    | stopping => cases h
    | failing => cases h
    | _ =>
      obtain ⟨id, hid⟩ := ih h
      exact ⟨id, List.mem_append_left _ hid⟩

/-- A start has been connected, and since then what was there has been queued. -/
def Connecting (id : Nat) (tr : List Item) : Prop :=
  ∃ a b, tr = a ++ .connected id :: b ∧ ∀ i ∈ b, (i.queued?).isSome = true

/-- Whether events may be queued: the watch runs, or a start queues what was there. -/
def Taking (tr : List Item) : Prop :=
  runs tr = true ∨ ∃ id, Connecting id tr

/-- Queueing events does not stop a watch. -/
theorem runs_append (h : runs a = true) (hb : ∀ i ∈ b, (i.queued?).isSome = true) :
    runs (a ++ b) = true := by
  induction b using List.reverseRecOn with
  | nil => rwa [List.append_nil]
  | append_singleton b i ih =>
    obtain ⟨q, hq⟩ := Option.isSome_iff_exists.mp
      (hb i (List.mem_append_right _ (List.mem_singleton_self i)))
    rw [← List.append_assoc, runs_concat, i.eq_queued hq]
    exact ih fun j hj => hb j (List.mem_append_left _ hj)

theorem Taking.append (h : Taking a) (hb : ∀ i ∈ b, (i.queued?).isSome = true) :
    Taking (a ++ b) := by
  rcases h with hrun | ⟨id, c, d, rfl, hd⟩
  · exact .inl (runs_append hrun hb)
  · right
    refine ⟨id, c, d ++ b, by rw [List.append_assoc, List.cons_append], fun i hi => ?_⟩
    rcases List.mem_append.mp hi with hi | hi
    · exact hd i hi
    · exact hb i hi

/-- What may happen after a record. The timer of a pending event rings a fixed time after the event
was queued, or later, and the event is told if the watch runs at that time. -/
def Item.Allowed (debounce : Int) (tr : List Item) : Item → Prop
  | .queued q => (∀ ticket ∈ tickets tr, ticket < q.ticket) ∧ Taking tr
  -- The event was queued its quiet time before its timer is due.
  | .emitted due time ticket e =>
    runs tr = true ∧ ⟨due - debounce, ticket, e⟩ ∈ standing tr ∧ due ≤ time
  | .dropped due time ticket =>
    runs tr = false ∧ ∃ e, ⟨due - debounce, ticket, e⟩ ∈ standing tr ∧ due ≤ time
  | .ready id => Connecting id tr
  | _ => True

inductive Lawful (debounce : Int) : List Item → Prop
  | nil : Lawful debounce []
  | concat {tr : List Item} {i : Item} (h : Lawful debounce tr) (hi : i.Allowed debounce tr) :
      Lawful debounce (tr ++ [i])

theorem Lawful.before (h : Lawful debounce (a ++ b)) : Lawful debounce a := by
  induction b using List.reverseRecOn with
  | nil => rwa [List.append_nil] at h
  | append_singleton b i ih =>
    rw [← List.append_assoc] at h
    generalize htr : a ++ b ++ [i] = tr at h
    cases h with
    | nil => exact absurd htr (List.append_ne_nil_of_right_ne_nil _ (List.cons_ne_nil _ _))
    | concat h _ =>
      obtain ⟨rfl, -⟩ := List.append_inj' htr rfl
      exact ih h

theorem Lawful.allowed (h : Lawful debounce (a ++ i :: b)) : i.Allowed debounce a := by
  rw [← List.singleton_append, ← List.append_assoc] at h
  have hbefore := h.before
  generalize htr : a ++ [i] = tr at hbefore
  cases hbefore with
  | nil => exact absurd htr (List.append_ne_nil_of_right_ne_nil _ (List.cons_ne_nil _ _))
  | concat _ hi =>
    obtain ⟨rfl, hlast⟩ := List.append_inj' htr rfl
    rwa [List.singleton_inj.mp hlast]

/-- Tickets are given out in order. -/
theorem Lawful.sorted (h : Lawful debounce tr) : (tickets tr).Pairwise (· < ·) := by
  induction h with
  | nil => exact List.Pairwise.nil
  | @concat tr i _ hi ih =>
    rw [tickets_concat]
    cases hq : i.queued? with
    | none => rwa [Option.toList_none, List.map_nil, List.append_nil]
    | some q =>
      obtain rfl := Item.eq_queued hq
      refine List.pairwise_append.mpr ⟨ih, List.pairwise_singleton _ _, fun t ht u hu => ?_⟩
      rw [List.mem_singleton.mp hu]
      exact hi.1 t ht

/-- A ticket stands for one queued event. -/
theorem Lawful.queued_inj (h : Lawful debounce tr) {p : Queued} (hp : .queued p ∈ tr)
    (hq : .queued q ∈ tr) (hticket : p.ticket = q.ticket) : p = q := by
  -- Tickets rise, so none is given out twice.
  have hnodup : (tickets tr).Nodup := h.sorted.imp fun hlt => Nat.ne_of_lt hlt
  exact List.inj_on_of_nodup_map hnodup (List.mem_filterMap.mpr ⟨_, hp, rfl⟩)
    (List.mem_filterMap.mpr ⟨_, hq, rfl⟩) hticket

theorem queued_of_mem_standing (h : q ∈ standing tr) : .queued q ∈ tr := by
  obtain ⟨a, b, rfl, -⟩ := mem_standing_iff.mp h
  exact List.mem_append_right _ List.mem_cons_self

theorem Lawful.standing_inj (h : Lawful debounce tr) {p : Queued} (hp : p ∈ standing tr)
    (hq : q ∈ standing tr) (hticket : p.ticket = q.ticket) : p = q :=
  h.queued_inj (queued_of_mem_standing hp) (queued_of_mem_standing hq) hticket

/-- The ticket of a pending event has not been used up. -/
theorem Lawful.not_ended (h : Lawful debounce tr) (hq : q ∈ standing tr) {due time : Int} :
    (∀ e, .emitted due time q.ticket e ∉ tr) ∧ .dropped due time q.ticket ∉ tr := by
  obtain ⟨a, b, rfl, hb⟩ := mem_standing_iff.mp hq
  have hlater {i : Item} (hi : i ∈ a ++ .queued q :: b) (hends : i.ends q = true)
      (hkind : i ≠ .queued q) : i ∈ a := by
    rcases List.mem_append.mp hi with hi | hi
    · exact hi
    · have hi := (List.mem_cons.mp hi).resolve_left hkind
      rw [hb i hi] at hends
      cases hends
  -- What was queued before has a smaller ticket.
  have hearlier {i : Item} (hi : i ∈ a)
      (hallowed : ∀ c, i.Allowed debounce c → ∃ p ∈ standing c, p.ticket = q.ticket) : False := by
    obtain ⟨c, d, rfl⟩ := List.append_of_mem hi
    obtain ⟨p, hp, hticket⟩ := hallowed c (by
      rw [List.append_assoc] at h
      exact h.allowed)
    have hlt := h.allowed.1 p.ticket (by
      rw [tickets_append]
      exact List.mem_append_left _ (mem_tickets_of_standing hp))
    omega
  constructor
  · intro e he
    refine hearlier (hlater he (by simp [Item.ends]) (by simp)) fun c hc => ?_
    exact ⟨_, hc.2.1, rfl⟩
  · intro he
    refine hearlier (hlater he (by simp [Item.ends]) (by simp)) fun c hc => ?_
    obtain ⟨e, he, -⟩ := hc.2
    exact ⟨_, he, rfl⟩

end LiveIndex.Watch
