import LiveIndex.Proofs.Index.Stored
import Mathlib.Data.List.Nodup

/-! The calls of an index that wait. Each goes by a number of its own, and whatever happens in the
meantime it waits until it is told to go on. -/

namespace LiveIndex.Index.Session

/-- The calls that wait have the numbers of calls that have begun, each its own. -/
structure Numbered (s : Session) : Prop where
  distinct : (s.flights.map Flight.id).Nodup
  begun : ∀ f ∈ s.flights, f.id < s.nextId

variable {s : Session}

theorem Numbered.settle (h : s.Numbered) {id : Nat} (hid : id < s.nextId)
    (hnew : ∀ f ∈ s.flights, f.id ≠ id) (ticket : Option Nat) (work : Work) :
    (s.settle id ticket work).Numbered := by
  have hnext : (s.settle id ticket work).nextId = s.nextId := s.settle_nextId ..
  rcases s.settle_flights id ticket work with hf | ⟨g, hg, hf⟩
  · refine ⟨?_, ?_⟩
    · rw [hf]
      exact h.distinct
    · rw [hf, hnext]
      exact h.begun
  · refine ⟨?_, ?_⟩
    · rw [hf, List.map_append, List.map_singleton, List.nodup_append]
      refine ⟨h.distinct, List.nodup_singleton _, ?_⟩
      intro n hn m hm
      obtain ⟨f, hf, rfl⟩ := List.mem_map.mp hn
      rw [List.mem_singleton.mp hm, hg]
      exact hnew f hf
    · rw [hf, hnext]
      intro f hf
      rcases List.mem_append.mp hf with hf | hf
      · exact h.begun f hf
      · rw [List.mem_singleton.mp hf, hg]
        exact hid

theorem Numbered.of_same {s' : Session} (h : s.Numbered) (hflights : s'.flights = s.flights)
    (hnext : s'.nextId = s.nextId) : s'.Numbered := by
  refine ⟨?_, ?_⟩
  · rw [hflights]
    exact h.distinct
  · rw [hflights, hnext]
    exact h.begun

theorem Numbered.launch (h : s.Numbered) (ticket : Option Nat) (work : Work) :
    (s.launch ticket work).Numbered := by
  have hlater : Numbered { s with nextId := s.nextId + 1 } :=
    ⟨h.distinct, fun f hf => Nat.lt_succ_of_lt (h.begun f hf)⟩
  exact hlater.settle (Nat.lt_succ_self _) (fun f hf => Nat.ne_of_lt (h.begun f hf)) ticket work

/-- A call that goes on no longer counts among those that wait. -/
theorem Numbered.without (h : s.Numbered) {f : Flight} (hf : f ∈ s.flights) :
    (s.without f).Numbered ∧ f.id < (s.without f).nextId ∧
      ∀ g ∈ (s.without f).flights, g.id ≠ f.id := by
  have hsub : ((s.without f).flights).Sublist s.flights := List.eraseP_sublist
  refine ⟨⟨h.distinct.sublist (hsub.map _), fun g hg => h.begun g (hsub.subset hg)⟩,
    h.begun f hf, ?_⟩
  -- The first call with the number is the only one.
  obtain ⟨g, l₁, l₂, hl₁, hg, hsplit, hrest⟩ :=
    List.exists_of_eraseP (p := (·.id = f.id)) hf (decide_eq_true rfl)
  have hgid : g.id = f.id := of_decide_eq_true hg
  have hdistinct := h.distinct
  rw [hsplit, List.map_append, List.map_cons, List.nodup_append] at hdistinct
  obtain ⟨-, hback, hfront⟩ := hdistinct
  intro k hk hkid
  have hk : k ∈ l₁ ++ l₂ := by
    rw [← hrest]
    exact hk
  rcases List.mem_append.mp hk with hk | hk
  · exact hfront _ (List.mem_map_of_mem hk) _ List.mem_cons_self (hkid.trans hgid.symm)
  · have hnot := (List.nodup_cons.mp hback).1
    rw [hgid, ← hkid] at hnot
    exact hnot (List.mem_map_of_mem hk)

theorem Numbered.step (h : s.Numbered) (a : Action) : (s.step a).Numbered := by
  rcases s.step_cases a with hsame | ⟨t, ticket, work, hsame, -, hstep⟩ | ⟨f, result, -, hf, hstep⟩
  · exact h.of_same hsame.flights hsame.nextId
  · rw [hstep]
    exact (h.of_same hsame.flights hsame.nextId).launch ticket work
  · rw [hstep]
    rcases s.wake_kinds f result with hwake | ⟨t, work, hsame, hwake, -⟩
    · rw [hwake]
      exact h
    · obtain ⟨hrest, hlt, hother⟩ := h.without (List.mem_of_find?_eq_some hf)
      have ht : t.Numbered := hrest.of_same hsame.flights hsame.nextId
      rw [hwake]
      refine ht.settle ?_ ?_ f.ticket work
      · rw [hsame.nextId]
        exact hlt
      · rw [hsame.flights]
        exact hother

theorem Numbered.run (h : s.Numbered) (actions : List Action) : (s.run actions).Numbered := by
  induction actions generalizing s with
  | nil => exact h
  | cons a actions ih => exact ih (h.step a)

theorem numbered_fresh (options : Options) (file : Except Failure Content) :
    (fresh options file).Numbered :=
  ⟨List.nodup_nil, fun _ h => absurd h List.not_mem_nil⟩

/-- A call waits on through everything but what tells it to go on. -/
theorem mem_flights_step {f : Flight} (hf : f ∈ s.flights) {a : Action}
    (ha : ∀ result, a ≠ .resume f.id result) : f ∈ (s.step a).flights := by
  have hsettle {t : Session} (ht : f ∈ t.flights) (id : Nat) (ticket : Option Nat) (work : Work) :
      f ∈ (t.settle id ticket work).flights := by
    rcases t.settle_flights id ticket work with hflights | ⟨g, -, hflights⟩
    · rw [hflights]
      exact ht
    · rw [hflights]
      exact List.mem_append_left _ ht
  rcases s.step_cases a with hsame | ⟨t, ticket, work, hsame, -, hstep⟩ |
    ⟨g, result, rfl, -, hstep⟩
  · rw [hsame.flights]
    exact hf
  · rw [hstep]
    exact hsettle (t := { t with nextId := t.nextId + 1 }) (hsame.flights ▸ hf) _ _ _
  · rw [hstep]
    rcases s.wake_kinds g result with hwake | ⟨t, work, hsame, hwake, -⟩
    · rw [hwake]
      exact hf
    · -- The call that goes on is another one.
      have hne : f.id ≠ g.id := fun h => ha result (by rw [h])
      have hrest : f ∈ t.flights := by
        rw [hsame.flights]
        exact (List.mem_eraseP_of_neg (by simpa using hne)).mpr hf
      rw [hwake]
      exact hsettle hrest _ _ _

theorem Numbered.find? (h : s.Numbered) {f : Flight} (hf : f ∈ s.flights) :
    s.flights.find? (·.id = f.id) = some f :=
  find?_of_nodup h.distinct hf

/-- A call that waits goes on when it is told to, whatever has happened since. -/
theorem step_resume (h : s.Numbered) {f : Flight} (hf : f ∈ s.flights)
    (result : Except Failure Unit) : s.step (.resume f.id result) = s.wake f result := by
  rw [Session.step, h.find? hf]

end LiveIndex.Index.Session
