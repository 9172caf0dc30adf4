import LiveIndex.Proofs.Sharing.Steps

/-! What the intake does beside a shared index. It takes in what it is told, and if a batch of it
begins or goes on, the index is given what the changes tell. -/

namespace LiveIndex.Sharing.Session

open Intake (Change)
open Intake.Session (Returning)

variable {k : Keeper} {s t : Session} {events : List Event}

/-- The intake does something. What was looked up comes from what was seen, and a call of the index
comes back only if one was made. -/
structure TakesIn (s : Session) (a : Intake.Action) (t : Session) : Prop where
  live : a ≠ .begin .destroy
  base : t.base = s.base
  intake : t.intake = s.intake.step a
  seen : t.seen = s.seen
  jobs : t.jobs = s.jobs
  nextJob : t.nextJob = s.nextJob
  record : t.record = s.record ++ s.vanishings a
  asked : ¬Returning a ∧ t.asked = s.asked ∨ s.asked.isSome ∧ t.asked = none
  found : ∀ id result f n kind path, a = .resume id (.found result) →
    s.intake.flights.find? (·.id = id) = some f → f.waiting = .lookingUp n kind path →
    ∃ x, s.seen.find? (·.1 = n) = some x ∧ x.2 = result

/-- What a change tells was found out on its account: it has vanished, or there is an entry. -/
def Tells (record : List Event) (c : Change) : Prop :=
  match c.entry with
  | none => c.isRemoval = true ∧ .found (.arrival c.arrival) (.vanished c.path) ∈ record
  | some e => c.isRemoval = false ∧ e.path = c.path ∧
      .found (.arrival c.arrival) (.resolved c.path (.ok e)) ∈ record

section Telling

variable {record : List Event} {c : Change}

/-- What a change tells is decided by what was found out on its account. -/
theorem Tells.decides (h : Tells record c) (k : Keeper) :
    ∃ f, .found (.arrival c.arrival) f ∈ record ∧ f.Decides k c.path c.entry := by
  unfold Tells at h
  cases hentry : c.entry with
  | none =>
    rw [hentry] at h
    exact ⟨_, h.2, rfl, rfl⟩
  | some e =>
    rw [hentry] at h
    exact ⟨_, h.2.2, rfl, rfl⟩

theorem Tells.append (h : Tells record c) (more : List Event) : Tells (record ++ more) c := by
  unfold Tells at h ⊢
  cases hentry : c.entry with
  | none =>
    rw [hentry] at h
    exact ⟨h.1, List.mem_append_left _ h.2⟩
  | some e =>
    rw [hentry] at h
    exact ⟨h.1, h.2.1, List.mem_append_left _ h.2.2⟩

/-- A change tells the same however often it was tried. -/
theorem Tells.of_origin (h : Tells record c) {d : Change} (hsame : d.origin = c.origin) :
    Tells record d := by
  obtain ⟨kind, path, entry, retries, arrival⟩ := c
  obtain ⟨kind', path', entry', retries', arrival'⟩ := d
  cases hsame
  exact h

end Telling

/-- A batch of the intake begins, or goes on with a removal: the index is told what its changes
tell. -/
structure Hands (s t : Session) (g : Intake.Stage) (events : List Event) : Prop extends
    Grows s t events where
  intake : t.intake = s.intake
  seen : t.seen = s.seen
  jobs : t.jobs = s.jobs
  nextJob : t.nextJob = s.nextJob
  asked : t.asked.isSome
  stages : s.intake.stages = [g]
  applied : ∀ e ∈ events, ∃ c ∈ g.current, ∃ deep,
    e = .applied (.arrival c.arrival) c.path c.entry deep
  handed : ∀ c ∈ g.current, ∃ e ∈ events, e.leaves c.path = some c.entry

section Handing

variable {id : Nat} {ticket : Option Nat} {round : Intake.Round}

end Handing

/-- What a lookup of the intake has found out is seen from then on. -/
def looked (s : Session) (n : Nat) (path : String) (result : Except Failure Entry) : Session :=
  { s.note (.found (.arrival n) (.resolved path result)) with seen := s.seen ++ [(n, result)] }

theorem grows_looked (hs : s.base.Lasting) (n : Nat) (path : String)
    (result : Except Failure Entry) :
    Grows s (s.looked n path result) [.found (.arrival n) (.resolved path result)] := by
  refine grows_nothing hs rfl rfl ?_
  intro e he p
  rw [List.mem_singleton.mp he]
  rfl

end LiveIndex.Sharing.Session
