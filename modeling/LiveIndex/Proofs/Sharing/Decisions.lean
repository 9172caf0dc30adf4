import LiveIndex.Proofs.Keeper.Refreshing
import LiveIndex.Proofs.Sharing.Backing

/-! What becomes of a finding. Whoever has found something out owes it to the index until the index
shows it. From then on it shows it until something else is applied there; nothing that is applied is
compared with it, and what was found out earlier may be applied later. -/

namespace LiveIndex.Sharing

/-- After a point of the record something else was decided for a path than a verdict. -/
def Overruled (record : List Event) (j : Nat) (p : String) (verdict : Option Entry) : Prop :=
  ∃ i > j, ∃ e other, record[i]? = some e ∧ e.leaves p = some other ∧ other ≠ verdict

theorem Overruled.append {record : List Event} {j : Nat} {p : String} {verdict : Option Entry}
    (h : Overruled record j p verdict) (more : List Event) :
    Overruled (record ++ more) j p verdict := by
  obtain ⟨i, hi, e, other, he, hleaves⟩ := h
  have hlt := (List.getElem?_eq_some_iff.mp he).1
  exact ⟨i, hi, e, other, by rw [List.getElem?_append_left hlt, he], hleaves⟩

theorem overruled_of_mem {record more : List Event} {j : Nat} (hj : j < record.length) {p : String}
    {verdict other : Option Entry} {e : Event} (he : e ∈ more) (hleaves : e.leaves p = some other)
    (hother : other ≠ verdict) : Overruled (record ++ more) j p verdict := by
  obtain ⟨i, hi⟩ := List.getElem?_of_mem he
  refine ⟨record.length + i, Nat.lt_add_right i hj, e, other, ?_, hleaves, hother⟩
  rw [List.getElem?_append_right (Nat.le_add_right ..), Nat.add_sub_cancel_left, hi]

namespace Session

open Intake (Change)
open Intake.Session (Returning)

/-- A change is to be handed to the index, which has not been asked for it. -/
def Unhanded (s : Session) (c : Change) : Prop :=
  s.intake.Awaits c ∨ s.asked = none ∧ ∃ g ∈ s.intake.stages, c ∈ g.current

/-- A verdict that its source has still to apply. -/
def Owed (k : Keeper) (s : Session) : Source → String → Option Entry → Prop
  | .call id, p, verdict => ∃ job, s.jobs.get? id = some job ∧ job.Owes k p verdict
  | .arrival n, p, verdict =>
    (∃ f ∈ s.intake.flights, ∃ kind e, f.waiting = .lookingUp n kind p ∧
      s.seen.find? (·.1 = n) = some (n, .ok e) ∧ verdict = some e) ∨
    ∃ c, s.Unhanded c ∧ c.arrival = n ∧ c.path = p ∧ c.entry = verdict

/-- A later change of the path has arrived. -/
def Outdated (s : Session) : Source → String → Prop
  | .call _, _ => False
  | .arrival n, p => s.intake.Superseded n p

/-- Every finding is owed, or outdated, or shown by the index, unless it was overruled. -/
def Decided (k : Keeper) (s : Session) : Prop :=
  ∀ (j : Nat) who f p verdict, s.record[j]? = some (.found who f) → f.Decides k p verdict →
    s.Owed k who p verdict ∨ s.Outdated who p ∨ Shows s.base.index.entries p verdict ∨
      Overruled s.record j p verdict

variable {k : Keeper} {s t : Session} {id : Nat} {events : List Event} {job : Option Job}

/-- Findings stay decided if what is paid is shown or applied, and what is new is owed. -/
theorem Decided.grows (h : Decided k s) (hgrows : Grows s t events)
    (howed : ∀ who p v, s.Owed k who p v → t.Owed k who p v ∨ t.Outdated who p ∨
      Shows s.base.index.entries p v ∨ ∃ e ∈ events, e.leaves p = some v)
    (houtdated : ∀ who p, s.Outdated who p → t.Outdated who p)
    (hfound : ∀ who f p v, .found who f ∈ events → f.Decides k p v → t.Owed k who p v) :
    Decided k t := by
  intro j who f p v hj hdecides
  rw [hgrows.record] at hj
  by_cases hlt : j < s.record.length
  · rw [List.getElem?_append_left hlt] at hj
    have hshown (hshows : Shows s.base.index.entries p v ∨ ∃ e ∈ events, e.leaves p = some v) :
        Shows t.base.index.entries p v ∨ Overruled t.record j p v := by
      rcases hgrows.follows.shows hshows with hshows | ⟨e, he, other, hleaves, hother⟩
      · exact .inl hshows
      · rw [hgrows.record]
        exact .inr (overruled_of_mem hlt he hleaves hother)
    rcases h j who f p v hj hdecides with hs | hs | hs | hs
    · rcases howed who p v hs with ht | ht | ht
      · exact .inl ht
      · exact .inr (.inl ht)
      · exact .inr (.inr (hshown ht))
    · exact .inr (.inl (houtdated who p hs))
    · exact .inr (.inr (hshown (.inl hs)))
    · rw [hgrows.record]
      exact .inr (.inr (.inr (hs.append events)))
  · rw [List.getElem?_append_right (Nat.le_of_not_lt hlt)] at hj
    exact .inl (hfound who f p v (List.mem_of_getElem? hj) hdecides)

/-- What is owed for an arrival does not depend on the calls. -/
theorem owed_arrival_of_same (hintake : t.intake = s.intake) (hseen : t.seen = s.seen)
    (hasked : t.asked = s.asked) (n : Nat) (p : String) (v : Option Entry) :
    t.Owed k (.arrival n) p v ↔ s.Owed k (.arrival n) p v := by
  simp only [Owed, Unhanded, hintake, hseen, hasked]

theorem outdated_of_same (hintake : t.intake = s.intake) (who : Source) (p : String)
    (h : s.Outdated who p) : t.Outdated who p := by
  cases who with
  | call id => exact h
  | arrival n =>
    rw [Outdated, hintake]
    exact h

/-- A step of a call keeps findings decided if the call accounts for what it owed. -/
theorem Decided.moves (h : Decided k s) (hmoves : Moves s t id events job)
    (howed : ∀ own, s.jobs.get? id = some own → ∀ p v, own.Owes k p v →
      (∃ j, job = some j ∧ j.Owes k p v) ∨ Shows s.base.index.entries p v ∨
        ∃ e ∈ events, e.leaves p = some v)
    (hfound : ∀ who f, .found who f ∈ events → who = .call id ∧
      ∀ p v, f.Decides k p v → ∃ j, job = some j ∧ j.Owes k p v) : Decided k t := by
  refine h.grows hmoves.toGrows ?_ (outdated_of_same hmoves.intake) ?_
  · intro who p v hs
    cases who with
    | arrival n =>
      exact .inl ((owed_arrival_of_same hmoves.intake hmoves.seen hmoves.asked n p v).mpr hs)
    | call i =>
      obtain ⟨own, hown, howes⟩ := hs
      by_cases hi : i = id
      · subst hi
        rcases howed own hown p v howes with ⟨j, hj, hjowes⟩ | hpaid
        · exact .inl ⟨j, hmoves.job.trans hj, hjowes⟩
        · exact .inr (.inr hpaid)
      · exact .inl ⟨own, (hmoves.others i hi).trans hown, howes⟩
  · intro who f p v he hdecides
    obtain ⟨rfl, hall⟩ := hfound who f he
    obtain ⟨j, hj, howes⟩ := hall p v hdecides
    exact ⟨j, hmoves.job.trans hj, howes⟩

theorem Decided.hands (h : Decided k s) {g : Intake.Stage} (hhands : Hands s t g events) :
    Decided k t := by
  refine h.grows hhands.toGrows ?_ (outdated_of_same hhands.intake) ?_
  · intro who p v hs
    cases who with
    | call id =>
      rw [Owed, hhands.jobs]
      exact .inl hs
    | arrival n =>
      rcases hs with ⟨f, hf, hlooks⟩ | ⟨c, hc, rfl, rfl, rfl⟩
      · rw [Owed, hhands.intake, hhands.seen]
        exact .inl (.inl ⟨f, hf, hlooks⟩)
      · rcases hc with hawaits | ⟨-, g', hg', hc⟩
        · refine .inl (.inr ⟨c, .inl ?_, rfl, rfl, rfl⟩)
          rw [hhands.intake]
          exact hawaits
        · rw [hhands.stages] at hg'
          rw [List.mem_singleton.mp hg'] at hc
          exact .inr (.inr (.inr (hhands.handed c hc)))
  · intro who f p v he
    obtain ⟨c, -, deep, heq⟩ := hhands.applied _ he
    cases heq

/-- A lookup that is over has its change queued, unless it is outdated. -/
theorem owed_of_lookup (hs : Sound k s) {a : Intake.Action} (htakes : s.TakesIn a t)
    {f : Intake.Flight} (hf : f ∈ s.intake.flights) {n : Nat} {kind : WatchKind} {p : String}
    {e : Entry} (hwaiting : f.waiting = .lookingUp n kind p)
    (hseen : s.seen.find? (·.1 = n) = some (n, .ok e)) :
    t.Owed k (.arrival n) p (some e) ∨ t.Outdated (.arrival n) p := by
  rcases Intake.Session.mem_flights_step hf a with hstays | ⟨work, hworks⟩
  · refine .inl (.inl ⟨f, ?_, kind, e, hwaiting, ?_, rfl⟩)
    · rw [htakes.intake]
      exact hstays
    · rw [htakes.seen]
      exact hseen
  · cases hworks.doing with
    | found hfind hlooking result =>
      rw [hwaiting] at hlooking
      cases hlooking
      obtain ⟨x, hx, rfl⟩ := htakes.found _ _ f n kind p rfl hfind hwaiting
      rw [hseen] at hx
      cases hx
      rcases Intake.Session.awaits_lookedUp hs.ordered hs.looking hs.asks hfind hwaiting e with
        hawaits | hsuperseded
      · refine .inl (.inr ⟨⟨kind, p, some e, 0, n⟩, .inl ?_, rfl, rfl, rfl⟩)
        rw [htakes.intake]
        exact hawaits
      · rw [Outdated, htakes.intake]
        exact .inr (Intake.Session.superseded_step hsuperseded _)
    | stored _ hstoring _ =>
      rw [hwaiting] at hstoring
      cases hstoring
    | removed _ hremoving _ =>
      rw [hwaiting] at hremoving
      cases hremoving
    | joined _ hjoining =>
      rw [hwaiting] at hjoining
      cases hjoining

/-- A change that is to be handed over stays so, unless a later one is queued. -/
theorem unhanded_of_takesIn (hs : Sound k s) {a : Intake.Action} (htakes : s.TakesIn a t)
    {c : Change} (hc : s.Unhanded c) : t.Unhanded c ∨ t.Outdated (.arrival c.arrival) c.path := by
  have hordered := Intake.Session.ordered_step hs.ordered htakes.live
  rw [Unhanded, Outdated, htakes.intake]
  rcases hc with hawaits | ⟨hnone, g, hg, hc⟩
  · rcases Intake.Session.awaits_step hs.ordered htakes.live hawaits with
      hstays | ⟨hfree, hcurrent⟩ | ⟨q, hq, hpath, hlt⟩
    · exact .inl (.inl hstays)
    · refine .inl (.inr ⟨?_, hcurrent⟩)
      rcases htakes.asked with ⟨hreturning, hsame⟩ | ⟨-, hnone⟩
      · -- No batch was under way, so nothing was asked of the index.
        have hstages := hfree.resolve_right hreturning
        rw [hsame, ← Option.not_isSome_iff_eq_none]
        exact fun hasked => hs.handing hasked hstages
      · exact hnone
    · rw [← hpath]
      exact .inr (Intake.Session.superseded_of_queued hordered hq hlt)
  · rcases htakes.asked with ⟨hreturning, hsame⟩ | ⟨hasked, -⟩
    · rcases Intake.Session.stages_step hs.ordered htakes.live hreturning with hstages | hnil
      · rw [hsame, hstages]
        exact .inl (.inr ⟨hnone, g, hg, hc⟩)
      · rw [hnil] at hg
        cases hg
    · rw [hnone] at hasked
      cases hasked

theorem Decided.takesIn (h : Decided k s) (hs : Sound k s) {a : Intake.Action}
    (htakes : s.TakesIn a t) : Decided k t := by
  refine h.grows (htakes.grows hs.lasting) ?_ ?_ ?_
  · intro who p v howed
    cases who with
    | call id =>
      rw [Owed, htakes.jobs]
      exact .inl howed
    | arrival n =>
      rcases howed with ⟨f, hf, kind, e, hwaiting, hseen, rfl⟩ | ⟨c, hc, rfl, rfl, rfl⟩
      · exact (owed_of_lookup hs htakes hf hwaiting hseen).imp_right .inl
      · rcases unhanded_of_takesIn hs htakes hc with hunhanded | houtdated
        · exact .inl (.inr ⟨c, hunhanded, rfl, rfl, rfl⟩)
        · exact .inr (.inl houtdated)
  · intro who p houtdated
    cases who with
    | call id => exact houtdated
    | arrival n =>
      rw [Outdated, htakes.intake]
      exact Intake.Session.superseded_step houtdated a
  · intro who f p v he hdecides
    obtain ⟨c, hnoted, hentry, heq⟩ := mem_vanishings he
    cases heq
    obtain ⟨rfl, rfl⟩ := hdecides
    refine .inr ⟨c, .inl (.inl ?_), rfl, rfl, hentry⟩
    rw [htakes.intake]
    exact Intake.Session.queue_of_noted hs.ordered htakes.live hnoted

theorem Decided.looks (h : Decided k s) (hs : Sound k s) {f : Intake.Flight}
    (hf : f ∈ s.intake.flights) {n : Nat} {kind : WatchKind} {path : String}
    (hwaiting : f.waiting = .lookingUp n kind path) (hnew : s.seen.find? (·.1 = n) = none)
    (result : Except Failure Entry) : Decided k (s.looked n path result) := by
  refine h.grows (grows_looked hs.lasting n path result) ?_ (fun _ _ houtdated => houtdated) ?_
  · intro who p v howed
    cases who with
    | call id => exact .inl howed
    | arrival m =>
      rcases howed with ⟨f', hf', kind', e, hwaiting', hseen, rfl⟩ | hunhanded
      · refine .inl (.inl ⟨f', hf', kind', e, hwaiting', ?_, rfl⟩)
        rw [looked, List.find?_append, hseen, Option.some_or]
      · exact .inl (.inr hunhanded)
  · intro who f' p v he hdecides
    cases List.mem_singleton.mp he
    cases result with
    | error failure => exact False.elim hdecides
    | ok e =>
      obtain ⟨rfl, rfl⟩ := hdecides
      refine .inl ⟨f, hf, kind, e, hwaiting, ?_, rfl⟩
      rw [looked, List.find?_append, hnew, Option.none_or]
      simp

theorem Decided.begins (h : Decided k s) (hs : Sound k s)
    (hmoves : Moves { s with nextJob := s.nextJob + 1 } t s.nextJob events job)
    (hevents : ∀ e ∈ events, e = .cleared s.nextJob) : Decided k t := by
  have hnumbered : Decided k { s with nextJob := s.nextJob + 1 } :=
    h.grows (grows_numbered hs.lasting) (fun _ _ _ howed => .inl howed)
      (fun _ _ houtdated => houtdated) fun _ _ _ _ he => absurd he List.not_mem_nil
  refine hnumbered.moves hmoves ?_ ?_
  · exact fun own hown => absurd (hs.jobs s.nextJob own hown).below (Nat.lt_irrefl _)
  · intro who f he
    cases hevents _ he

theorem Decided.observes (h : Decided k s) {own own' : Job} (hown : s.jobs.get? id = some own)
    {f : Finding} (hmoves : Moves s t id [.found (.call id) f] (some own'))
    (howes : ∀ p v, own'.Owes k p v ↔ f.Decides k p v ∨ own.Owes k p v) : Decided k t := by
  refine h.moves hmoves ?_ ?_
  · intro own₀ hown₀ p v hp
    obtain rfl : own = own₀ := Option.some.inj (hown.symm.trans hown₀)
    exact .inl ⟨own', rfl, (howes p v).mpr (.inr hp)⟩
  · intro who f' he
    cases List.mem_singleton.mp he
    exact ⟨rfl, fun p v hdecides => ⟨own', rfl, (howes p v).mpr (.inl hdecides)⟩⟩

theorem Decided.pays (h : Decided k s) {own : Job} (hown : s.jobs.get? id = some own)
    (hpays : Pays k s t id own events job) : Decided k t := by
  refine h.moves hpays.moves ?_ ?_
  · intro own₀ hown₀ p v hp
    obtain rfl : own = own₀ := Option.some.inj (hown.symm.trans hown₀)
    exact hpays.paid p v hp
  · intro who f he
    obtain ⟨p, v, deep, heq, -⟩ := hpays.applied _ he
    cases heq

theorem Decided.outcome (h : Decided k s) (hs : Sound k s) (ho : Outcome k s t) : Decided k t := by
  cases ho with
  | nothing => exact h
  | index ha =>
    refine h.grows (grows_quiet hs.lasting ha) (fun _ _ _ howed => .inl howed)
      (fun _ _ houtdated => houtdated) ?_
    exact fun _ _ _ _ he => absurd he List.not_mem_nil
  | takesIn htakes _ => exact h.takesIn hs htakes
  | hands htakes hhands => exact (h.takesIn hs htakes).hands hhands
  | looks hf hwaiting hnew _ => exact h.looks hs hf hwaiting hnew _
  | begins hmoves _ hevents => exact h.begins hs hmoves hevents
  | observes hown hmoves _ howes => exact h.observes hown hmoves howes
  | pays hown hpays => exact h.pays hown hpays

/-- The index is told at once what a batch of the intake has begun with. -/
def Settled (s : Session) : Prop :=
  s.asked.isSome ∨ s.intake.stages = []

theorem Settled.outcome (h : s.Settled) (ho : Outcome k s t) : t.Settled := by
  cases ho with
  | nothing => exact h
  | index _ => exact h
  | takesIn _ hover => exact hover
  | hands _ hhands => exact .inl hhands.asked
  | looks _ _ _ _ => exact h
  | begins hmoves _ _ =>
    rw [Settled, hmoves.asked, hmoves.intake]
    exact h
  | observes _ hmoves _ _ =>
    rw [Settled, hmoves.asked, hmoves.intake]
    exact h
  | pays _ hpays =>
    rw [Settled, hpays.moves.asked, hpays.moves.intake]
    exact h

section Racing

open Index (smallIndex)
open Keeper.Refreshing (small)

end Racing

end Session

end LiveIndex.Sharing
