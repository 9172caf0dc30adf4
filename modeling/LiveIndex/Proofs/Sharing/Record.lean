import LiveIndex.Keeper.Calls
import LiveIndex.Proofs.Index.Content

/-! What is found out about paths and what is done to an index on account of it, in the order in
which it happens. What an index holds of a path is what the last of it has left there. -/

namespace LiveIndex.Sharing

/-- Who finds something out and has it applied: a change that has arrived at the intake, or a call
of the keeper. Both go by numbers. -/
inductive Source
  | arrival (number : Nat)
  | call (id : Nat)
  deriving DecidableEq

/-- What is found out: one path is read for a call or for a change, an event tells that a path has
vanished, or a call walks over the disk. -/
inductive Finding
  | read (path : String) (result : Except Failure Entry)
  | resolved (path : String) (result : Except Failure Entry)
  | vanished (path : String)
  | walked (result : Except Failure (List Entry))
  | listed (result : Except Failure (OrderedMap String Entry))

/-- What a finding means for a path: the entry that belongs there, or that none does. A path that is
read for a call, and has vanished or is not wanted, is to be removed, and so is what an inventory
lacks. A walk says nothing of what it does not find, and neither does a change whose path cannot be
read. -/
def Finding.Decides (k : Keeper) : Finding → String → Option Entry → Prop
  | .read path (.ok e), p, verdict => p = path ∧ verdict = if k.wants path e then some e else none
  | .read path (.error f), p, verdict => p = path ∧ f.family = .system ∧ verdict = none
  | .resolved path (.ok e), p, verdict => p = path ∧ verdict = some e
  | .vanished path, p, verdict => p = path ∧ verdict = none
  | .walked (.ok entries), p, verdict => ∃ e ∈ entries, e.path = p ∧ verdict = some e
  | .listed (.ok disk), p, verdict => disk.get? p = verdict
  | _, _, _ => False

/-- What goes into the record: a finding, an entry that is stored or a path that is removed,
possibly with all that is beneath it, or that a refresh empties the index. -/
inductive Event
  | found (who : Source) (f : Finding)
  | applied (who : Source) (path : String) (verdict : Option Entry) (deep : Bool)
  | cleared (id : Nat)

/-- What an event leaves at a path, if it reaches it. -/
def Event.leaves : Event → String → Option (Option Entry)
  | .found .., _ => none
  | .applied _ path verdict deep, p =>
    if p = path then some verdict else if deep && Path.isBeneath path p then some none else none
  | .cleared _, _ => some none

/-- What the last of some events that reaches a path leaves there. -/
def lastLeft : List Event → String → Option (Option Entry)
  | [], _ => none
  | e :: rest, p => (lastLeft rest p).or (e.leaves p)

/-- Entries after some events: at each path there is what the last of them has left, up to an entry
that says the same, and what was there before where none of them reaches. -/
def Left (old : Option Entry) : Option (Option Entry) → Option Entry → Prop
  | none, new => new = old
  | some none, new => new = none
  | some (some e), new => ∃ e', new = some e' ∧ e'.same e = true

def Follows (before : OrderedMap String Entry) (events : List Event)
    (after : OrderedMap String Entry) : Prop :=
  ∀ p, Left (before.get? p) (lastLeft events p) (after.get? p)

section Following

variable {before between after : OrderedMap String Entry} {events more : List Event}

theorem lastLeft_append (events more : List Event) (p : String) :
    lastLeft (events ++ more) p = (lastLeft more p).or (lastLeft events p) := by
  induction events with
  | nil => exact (Option.or_none ..).symm
  | cons e events ih =>
    rw [List.cons_append, lastLeft, ih, lastLeft, Option.or_assoc]

/-- What is left last is left by one of the events. -/
theorem leaves_of_lastLeft {p : String} {verdict : Option Entry}
    (h : lastLeft events p = some verdict) : ∃ e ∈ events, e.leaves p = some verdict := by
  induction events with
  | nil => cases h
  | cons e events ih =>
    rw [lastLeft, Option.or_eq_some_iff] at h
    rcases h with h | ⟨-, h⟩
    · obtain ⟨e', he', hleaves⟩ := ih h
      exact ⟨e', List.mem_cons_of_mem _ he', hleaves⟩
    · exact ⟨e, List.mem_cons_self, h⟩

theorem lastLeft_of_leaves {p : String} {e : Event} (he : e ∈ events) (h : (e.leaves p).isSome) :
    (lastLeft events p).isSome := by
  induction events with
  | nil => exact absurd he List.not_mem_nil
  | cons first events ih =>
    rw [lastLeft, Option.isSome_or]
    rcases List.mem_cons.mp he with rfl | he
    · rw [h, Bool.or_true]
    · rw [ih he, Bool.true_or]

theorem follows_of_none (h : ∀ e ∈ events, ∀ p, e.leaves p = none) (m : OrderedMap String Entry) :
    Follows m events m := by
  intro p
  cases hlast : lastLeft events p with
  | none => rfl
  | some verdict =>
    obtain ⟨e, he, hleaves⟩ := leaves_of_lastLeft hlast
    rw [h e he p] at hleaves
    cases hleaves

theorem follows_nil (m : OrderedMap String Entry) : Follows m [] m :=
  follows_of_none (fun _ he => absurd he List.not_mem_nil) m

theorem Follows.append (h : Follows before events between) (hmore : Follows between more after) :
    Follows before (events ++ more) after := by
  intro p
  have hp := h p
  have hq := hmore p
  rw [lastLeft_append]
  cases hlast : lastLeft more p with
  | none =>
    rw [hlast] at hq
    obtain hq : after.get? p = between.get? p := hq
    rw [hq]
    exact hp
  | some verdict =>
    rw [hlast] at hq
    cases verdict <;> exact hq

end Following

/-- The entries that are stored one after another, each on somebody's account. -/
def stored (entries : List (Source × Entry)) : List Event :=
  entries.map fun x => .applied x.1 x.2.path (some x.2) false

/-- A removal as it goes into the record: what is beneath a directory goes along. -/
def removal (s : Index) (who : Source) (path : String) : Event :=
  .applied who path none ((s.entries.get? path).any Entry.isDirectory)

/-- Whether entries show at a path what was decided for it: nothing, or an entry with the same kind,
size and time of modification. -/
def Shows (entries : OrderedMap String Entry) (p : String) : Option Entry → Prop
  | none => entries.get? p = none
  | some e => ∃ e', entries.get? p = some e' ∧ e'.isOutdated e = false

/-- A decision that is shown stays so until an event decides otherwise. -/
theorem Follows.shows {before after : OrderedMap String Entry} {events : List Event} {p : String}
    {verdict : Option Entry} (h : Follows before events after)
    (hshows : Shows before p verdict ∨ ∃ e ∈ events, e.leaves p = some verdict) :
    Shows after p verdict ∨ ∃ e ∈ events, ∃ v, e.leaves p = some v ∧ v ≠ verdict := by
  have hp := h p
  cases hlast : lastLeft events p with
  | none =>
    rw [hlast] at hp
    obtain hp : after.get? p = before.get? p := hp
    rcases hshows with hshows | ⟨e, he, hleaves⟩
    · refine .inl ?_
      cases verdict <;>
      · rw [Shows, hp]
        exact hshows
    · have hsome := lastLeft_of_leaves he (by rw [hleaves]; rfl)
      rw [hlast] at hsome
      cases hsome
  | some v =>
    by_cases hv : v = verdict
    · subst hv
      rw [hlast] at hp
      refine .inl ?_
      cases v with
      | none => exact hp
      | some e =>
        obtain ⟨e', he', hsame⟩ := hp
        refine ⟨e', he', Bool.eq_false_iff.mpr fun houtdated => ?_⟩
        rw [Entry.not_same_of_isOutdated houtdated] at hsame
        cases hsame
    · obtain ⟨e, he, hleaves⟩ := leaves_of_lastLeft hlast
      exact .inr ⟨e, he, v, hleaves, hv⟩

end LiveIndex.Sharing
