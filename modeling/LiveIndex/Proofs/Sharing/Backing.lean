import LiveIndex.Proofs.Sharing.Handing

/-! Whatever is applied to a shared index was found out before, by the call or the change on whose
account it is applied. Until then it is held by whoever has found it out. -/

namespace LiveIndex.Sharing

/-- Whatever is applied was found out before by the same source. -/
def Backed (k : Keeper) (record : List Event) : Prop :=
  ∀ (i : Nat) who p verdict deep, record[i]? = some (.applied who p verdict deep) →
    ∃ j < i, ∃ f, record[j]? = some (.found who f) ∧ f.Decides k p verdict

/-- What was found out backs what is applied next. -/
theorem Backed.append {k : Keeper} {record more : List Event} (h : Backed k record)
    (hmore : ∀ who p verdict deep, .applied who p verdict deep ∈ more →
      ∃ f, .found who f ∈ record ∧ f.Decides k p verdict) : Backed k (record ++ more) := by
  intro i who p verdict deep hi
  by_cases hlt : i < record.length
  · rw [List.getElem?_append_left hlt] at hi
    obtain ⟨j, hj, f, hfound, hdecides⟩ := h i who p verdict deep hi
    exact ⟨j, hj, f, by rw [List.getElem?_append_left (hj.trans hlt), hfound], hdecides⟩
  · rw [List.getElem?_append_right (Nat.le_of_not_lt hlt)] at hi
    obtain ⟨f, hfound, hdecides⟩ := hmore who p verdict deep (List.mem_of_getElem? hi)
    obtain ⟨j, hj⟩ := List.getElem?_of_mem hfound
    have hjlt : j < record.length := (List.getElem?_eq_some_iff.mp hj).1
    exact ⟨j, hjlt.trans_le (Nat.le_of_not_lt hlt), f,
      by rw [List.getElem?_append_left hjlt, hj], hdecides⟩

namespace Session

open Intake (Change)
open Intake.Session (Returning)

/-- What was seen for an arrival is its path's, and is in the record. -/
def Saw (s : Session) (n : Nat) (result : Except Failure Entry) : Prop :=
  ∃ kind path, .arrived n kind path ∈ s.intake.trace ∧
    .found (.arrival n) (.resolved path result) ∈ s.record ∧ ∀ e, result = .ok e → e.path = path

/-- What a call owes was found out by it. -/
structure Accounted (k : Keeper) (s : Session) (id : Nat) (job : Job) : Prop where
  below : id < s.nextJob
  fits : job.Fits
  owed : ∀ p v, job.Owes k p v → ∃ f, .found (.call id) f ∈ s.record ∧ f.Decides k p v

/-- What holds at any time: what is going to be applied was found out. -/
structure Sound (k : Keeper) (s : Session) : Prop where
  lasting : s.base.Lasting
  ordered : s.intake.Ordered
  looking : s.intake.Looking
  asks : ∀ f ∈ s.intake.flights, f.waiting.Asks f.request
  handing : s.asked.isSome → s.intake.stages ≠ []
  saw : ∀ x ∈ s.seen, s.Saw x.1 x.2
  tells : ∀ c ∈ s.intake.held, Tells s.record c
  jobs : ∀ id job, s.jobs.get? id = some job → s.Accounted k id job
  backed : Backed k s.record

variable {k : Keeper} {s t : Session} {id : Nat} {events : List Event} {job : Option Job}

theorem sound_start {base : Index.Session} (hbase : base.Lasting) (root : String)
    (settings : Intake.Options) : Sound k (start base root settings) where
  lasting := hbase
  ordered := Intake.Session.ordered_fresh ..
  looking := Intake.Session.looking_fresh ..
  asks := fun _ h => absurd h List.not_mem_nil
  handing := fun h => absurd h Bool.false_ne_true
  saw := fun _ h => absurd h List.not_mem_nil
  tells := fun _ h => absurd h List.not_mem_nil
  jobs := by
    intro id job h
    cases h
  backed := by
    intro i who p verdict deep h
    cases h

theorem Saw.append {n : Nat} {result : Except Failure Entry} (h : s.Saw n result)
    (htrace : s.intake.trace ⊆ t.intake.trace) (hrecord : t.record = s.record ++ events) :
    t.Saw n result := by
  obtain ⟨kind, path, harrived, hfound, hpath⟩ := h
  exact ⟨kind, path, htrace harrived, hrecord ▸ List.mem_append_left _ hfound, hpath⟩

theorem Accounted.of_append {own : Job} (h : s.Accounted k id own) (hnext : s.nextJob ≤ t.nextJob)
    (hrecord : t.record = s.record ++ events) : t.Accounted k id own := by
  refine ⟨h.below.trans_le hnext, h.fits, ?_⟩
  intro p v howes
  obtain ⟨f, hf, hdecides⟩ := h.owed p v howes
  exact ⟨f, hrecord ▸ List.mem_append_left _ hf, hdecides⟩

/-- A session in which the intake rests stays sound if what is new is accounted for. -/
theorem Sound.grows (h : Sound k s) (hgrows : Grows s t events) (hintake : t.intake = s.intake)
    (hnext : s.nextJob ≤ t.nextJob) (hasked : t.asked.isSome → s.intake.stages ≠ [])
    (hsaw : ∀ x ∈ t.seen, x ∈ s.seen ∨ t.Saw x.1 x.2)
    (hjobs : ∀ id job, t.jobs.get? id = some job →
      s.jobs.get? id = some job ∨ t.Accounted k id job)
    (hevents : ∀ who p v deep, .applied who p v deep ∈ events →
      ∃ f, .found who f ∈ s.record ∧ f.Decides k p v) : Sound k t where
  lasting := hgrows.lasting
  ordered := hintake ▸ h.ordered
  looking := hintake ▸ h.looking
  asks := hintake ▸ h.asks
  handing := hintake ▸ hasked
  saw := by
    intro x hx
    rcases hsaw x hx with hold | hnew
    · refine (h.saw x hold).append ?_ hgrows.record
      rw [hintake]
      exact List.Subset.refl _
    · exact hnew
  tells := by
    rw [hintake, hgrows.record]
    exact fun c hc => (h.tells c hc).append events
  jobs := by
    intro i j hj
    rcases hjobs i j hj with hold | hnew
    · exact (h.jobs i j hold).of_append hnext hgrows.record
    · exact hnew
  backed := by
    rw [hgrows.record]
    exact h.backed.append hevents

/-- A step of a call keeps a session sound if what it applies was found out and what is left of the
call is accounted for. -/
theorem Sound.moves (h : Sound k s) (hmoves : Moves s t id events job)
    (hjob : ∀ j, job = some j → t.Accounted k id j)
    (hevents : ∀ who p v deep, .applied who p v deep ∈ events →
      ∃ f, .found who f ∈ s.record ∧ f.Decides k p v) : Sound k t := by
  refine h.grows hmoves.toGrows hmoves.intake hmoves.nextJob.ge ?_
    ?_ ?_ hevents
  · rw [hmoves.asked]
    exact h.handing
  · rw [hmoves.seen]
    exact fun x hx => .inl hx
  · intro i j hj
    by_cases hi : i = id
    · rw [hi, hmoves.job] at hj
      exact .inr (hi ▸ hjob j hj)
    · rw [hmoves.others i hi] at hj
      exact .inl hj

/-- What is left of a call that pays was owed before. -/
theorem Sound.pays (h : Sound k s) {own : Job} (hjob : s.jobs.get? id = some own)
    (hpays : Pays k s t id own events job) : Sound k t := by
  have haccounted := h.jobs id own hjob
  refine h.moves hpays.moves ?_ ?_
  · intro j hj
    have hown := haccounted.of_append hpays.moves.nextJob.ge hpays.moves.record
    exact ⟨hown.below, hpays.fits j hj, fun p v howes => hown.owed p v (hpays.owed j hj p v howes)⟩
  · intro who p v deep he
    obtain ⟨p', v', deep', heq, howes⟩ := hpays.applied _ he
    cases heq
    exact haccounted.owed p v howes

/-- A call that has found something out owes it. -/
theorem Sound.observes (h : Sound k s) {own own' : Job} (hjob : s.jobs.get? id = some own)
    {f : Finding} (hmoves : Moves s t id [.found (.call id) f] (some own')) (hfits : own'.Fits)
    (howes : ∀ p v, own'.Owes k p v ↔ f.Decides k p v ∨ own.Owes k p v) : Sound k t := by
  have haccounted := (h.jobs id own hjob).of_append hmoves.nextJob.ge hmoves.record
  refine h.moves hmoves ?_ ?_
  · rintro j ⟨⟩
    refine ⟨haccounted.below, hfits, fun p v hp => ?_⟩
    rcases (howes p v).mp hp with hdecides | hown
    · refine ⟨f, ?_, hdecides⟩
      rw [hmoves.record]
      exact List.mem_append_right _ List.mem_cons_self
    · exact haccounted.owed p v hown
  · intro who p v deep he
    cases List.mem_singleton.mp he

/-- A call that begins owes nothing, and has a number of its own. -/
theorem Sound.begins (h : Sound k s)
    (hmoves : Moves { s with nextJob := s.nextJob + 1 } t s.nextJob events job)
    (hfresh : ∀ j, job = some j → j.Fresh) (hevents : ∀ e ∈ events, e = .cleared s.nextJob) :
    Sound k t := by
  have hnumbered : Sound k { s with nextJob := s.nextJob + 1 } :=
    h.grows (grows_numbered h.lasting) rfl (Nat.le_succ _) h.handing (fun _ hx => .inl hx)
      (fun _ _ hj => .inl hj) fun _ _ _ _ he => absurd he List.not_mem_nil
  refine hnumbered.moves hmoves ?_ ?_
  · intro j hj
    refine ⟨?_, (hfresh j hj).fits, fun p v howes => absurd howes ((hfresh j hj).owes_nothing p v)⟩
    rw [hmoves.nextJob]
    exact Nat.lt_succ_self _
  · intro who p v deep he
    cases hevents _ he

theorem Sound.hands (h : Sound k s) {g : Intake.Stage} (hhands : Hands s t g events) :
    Sound k t := by
  refine h.grows hhands.toGrows hhands.intake hhands.nextJob.ge ?_ ?_ ?_ ?_
  · rw [hhands.stages]
    exact fun _ => List.cons_ne_nil _ _
  · rw [hhands.seen]
    exact fun x hx => .inl hx
  · rw [hhands.jobs]
    exact fun i j hj => .inl hj
  · intro who p v deep he
    obtain ⟨c, hc, deep', heq⟩ := hhands.applied _ he
    cases heq
    exact (h.tells c (Intake.Session.held_of_current hhands.stages hc)).decides k

/-- What is queued where it arrives is a removal. -/
theorem queued_arrival {ix : Intake} {call : Intake.Call} {c : Change}
    (hc : .queued c ∈ ix.arrivalEvents call) : c.entry = none ∧ c.isRemoval = true := by
  unfold Intake.arrivalEvents at hc
  split at hc
  · rcases List.mem_cons.mp hc with hc | hc
    · cases hc
    · split at hc
      · next hkind =>
        cases List.mem_singleton.mp hc
        exact ⟨rfl, hkind⟩
      · cases hc
  · cases hc

theorem queued_found {ix : Intake} {n : Nat} {kind : WatchKind} {path : String}
    {result : Except Failure Entry} {c : Change}
    (hc : .queued c ∈ ix.foundEvents n kind path result) :
    ∃ e, result = .ok e ∧ c = ⟨kind, path, some e, 0, n⟩ := by
  unfold Intake.foundEvents at hc
  split at hc
  · next e =>
    split at hc
    · exact ⟨e, rfl, Intake.Event.queued.inj (List.mem_singleton.mp hc)⟩
    · cases hc
  · cases hc

/-- What vanishes in a step is queued in it. -/
theorem mem_vanishings {a : Intake.Action} {e : Event} (he : e ∈ s.vanishings a) :
    ∃ c, .queued c ∈ s.intake.noted a ∧ c.entry = none ∧
      e = .found (.arrival c.arrival) (.vanished c.path) := by
  cases a with
  | begin call =>
    obtain ⟨note, hnote, heq⟩ := List.mem_filterMap.mp he
    cases note with
    | queued c =>
      refine ⟨c, hnote, ?_, (Option.some.inj heq).symm⟩
      exact (queued_arrival hnote).1
    | _ => cases heq
  | _ => cases he

theorem TakesIn.grows {a : Intake.Action} (htakes : s.TakesIn a t) (hs : s.base.Lasting) :
    Grows s t (s.vanishings a) := by
  refine grows_nothing hs htakes.base htakes.record ?_
  intro e he p
  obtain ⟨c, -, -, rfl⟩ := mem_vanishings he
  rfl

/-- A change that is queued in a step tells what was found out. -/
theorem Sound.tells_noted (h : Sound k s) {a : Intake.Action} (htakes : s.TakesIn a t) {c : Change}
    (hc : .queued c ∈ s.intake.noted a) : Tells t.record c := by
  cases a with
  | begin call =>
    obtain ⟨hentry, hremoval⟩ := queued_arrival hc
    unfold Tells
    rw [hentry, htakes.record]
    exact ⟨hremoval, List.mem_append_right _ (List.mem_filterMap.mpr ⟨_, hc, rfl⟩)⟩
  | resume id reply =>
    cases reply with
    | found result =>
      rw [Intake.Session.noted] at hc
      split at hc
      · next number ticket path n kind path' hf =>
        obtain ⟨x, hseen, rfl⟩ := htakes.found id result _ n kind path' rfl hf rfl
        obtain ⟨e, hresult, rfl⟩ := queued_found hc
        -- What was seen for the arrival was seen at its path.
        have hmem := List.mem_of_find?_eq_some hf
        obtain ⟨i, hi⟩ := h.ordered.sound _ hmem
        have hnumber : x.1 = n := by simpa using List.find?_some hseen
        obtain ⟨kind', path'', harrived, hfound, hpath⟩ := h.saw x (List.mem_of_find?_eq_some hseen)
        rw [hnumber] at harrived hfound
        obtain rfl := Intake.Session.arrived_inj h.ordered (List.mem_of_getElem? hi) harrived
        rw [hresult] at hfound
        refine ⟨(h.asks _ hmem).1, hpath e hresult, ?_⟩
        rw [htakes.record]
        exact List.mem_append_left _ hfound
      · cases hc
    | served result =>
      rw [Intake.Session.noted] at hc
      split at hc
      · exact absurd (List.mem_singleton.mp hc).symm (Intake.Session.returned_ne_queued _ _ _)
      · exact absurd (List.mem_singleton.mp hc).symm (Intake.Session.returned_ne_queued _ _ _)
      · cases hc
    | joined => cases hc
  | _ => cases hc

theorem Sound.takesIn (h : Sound k s) {a : Intake.Action} (htakes : s.TakesIn a t) :
    Sound k t where
  lasting := htakes.base ▸ h.lasting
  ordered := by
    rw [htakes.intake]
    exact Intake.Session.ordered_step h.ordered htakes.live
  looking := by
    rw [htakes.intake]
    exact Intake.Session.looking_step h.ordered htakes.live h.looking
  asks := by
    rw [htakes.intake]
    exact Intake.Session.asks_step h.asks a
  handing := by
    rw [htakes.intake]
    intro hasked
    rcases htakes.asked with ⟨hreturning, hsame⟩ | ⟨-, hnone⟩
    · rw [hsame] at hasked
      have hstages := h.handing hasked
      rcases Intake.Session.stages_step h.ordered htakes.live hreturning with heq | hnil
      · rw [heq]
        exact hstages
      · exact absurd hnil hstages
    · rw [hnone] at hasked
      cases hasked
  saw := by
    rw [htakes.seen]
    intro x hx
    refine (h.saw x hx).append ?_ htakes.record
    obtain ⟨new, htrace, -⟩ := s.intake.step_trace a
    rw [htakes.intake, htrace]
    exact List.subset_append_left _ _
  tells := by
    rw [htakes.intake]
    intro c hc
    rcases Intake.Session.held_step h.ordered htakes.live hc with ⟨d, hd, hsame⟩ | hnoted
    · rw [htakes.record]
      exact ((h.tells d hd).of_origin hsame).append _
    · exact h.tells_noted htakes hnoted
  jobs := by
    rw [htakes.jobs]
    exact fun i j hj => (h.jobs i j hj).of_append htakes.nextJob.ge htakes.record
  backed := by
    rw [htakes.record]
    refine h.backed.append ?_
    intro who p v deep he
    obtain ⟨c, -, -, heq⟩ := mem_vanishings he
    cases heq

/-- What a step comes to. -/
inductive Outcome (k : Keeper) (s : Session) : Session → Prop
  | nothing : Outcome k s s
  | index {a : Index.Action} (ha : a.isQuiet = true) : Outcome k s (s.order a [])
  | takesIn {a : Intake.Action} {t : Session} (htakes : s.TakesIn a t)
      (hover : t.asked.isSome ∨ t.intake.stages = []) : Outcome k s t
  | hands {a : Intake.Action} {r t : Session} (htakes : s.TakesIn a r) {g : Intake.Stage}
      {events : List Event} (hhands : Hands r t g events) : Outcome k s t
  | looks {f : Intake.Flight} (hf : f ∈ s.intake.flights) {n : Nat} {kind : WatchKind}
      {path : String} (hwaiting : f.waiting = .lookingUp n kind path)
      (hnew : s.seen.find? (·.1 = n) = none) {result : Except Failure Entry}
      (hpath : ∀ e, result = .ok e → e.path = path) : Outcome k s (s.looked n path result)
  | begins {t : Session} {events : List Event} {job : Option Job}
      (hmoves : Moves { s with nextJob := s.nextJob + 1 } t s.nextJob events job)
      (hfresh : ∀ j, job = some j → j.Fresh) (hevents : ∀ e ∈ events, e = .cleared s.nextJob) :
      Outcome k s t
  | observes {t : Session} {id : Nat} {own own' : Job} (hown : s.jobs.get? id = some own)
      {f : Finding} (hmoves : Moves s t id [.found (.call id) f] (some own')) (hfits : own'.Fits)
      (howes : ∀ p v, own'.Owes k p v ↔ f.Decides k p v ∨ own.Owes k p v) : Outcome k s t
  | pays {t : Session} {id : Nat} {own : Job} (hown : s.jobs.get? id = some own)
      {events : List Event} {rest : Option Job} (hpays : Pays k s t id own events rest) :
      Outcome k s t

theorem Sound.looks (h : Sound k s) {f : Intake.Flight} (hf : f ∈ s.intake.flights) {n : Nat}
    {kind : WatchKind} {path : String} (hwaiting : f.waiting = .lookingUp n kind path)
    {result : Except Failure Entry} (hpath : ∀ e, result = .ok e → e.path = path) :
    Sound k (s.looked n path result) := by
  refine h.grows (grows_looked h.lasting n path result) rfl le_rfl h.handing ?_
    (fun _ _ hj => .inl hj) ?_
  · intro x hx
    rcases List.mem_append.mp hx with hx | hx
    · exact .inl hx
    · rw [List.mem_singleton.mp hx]
      obtain ⟨i, hi⟩ : ∃ i : Nat, s.intake.trace[i]? = some (.arrived n kind path) := by
        have hsound := h.ordered.sound f hf
        rwa [hwaiting] at hsound
      refine .inr ⟨kind, path, List.mem_of_getElem? hi, ?_, hpath⟩
      exact List.mem_append_right _ List.mem_cons_self
  · intro who p v deep he
    cases List.mem_singleton.mp he

theorem Sound.outcome (h : Sound k s) (hs : Outcome k s t) : Sound k t := by
  cases hs with
  | nothing => exact h
  | index ha =>
    exact h.grows (grows_quiet h.lasting ha) rfl le_rfl h.handing (fun _ hx => .inl hx)
      (fun _ _ hj => .inl hj) fun _ _ _ _ he => absurd he List.not_mem_nil
  | takesIn htakes _ => exact h.takesIn htakes
  | hands htakes hhands => exact (h.takesIn htakes).hands hhands
  | looks hf hwaiting _ hpath => exact h.looks hf hwaiting hpath
  | begins hmoves hfresh hevents => exact h.begins hmoves hfresh hevents
  | observes hown hmoves hfits howes => exact h.observes hown hmoves hfits howes
  | pays hown hpays => exact h.pays hown hpays

theorem Outcome.grows (h : Outcome k s t) (hs : Sound k s) : ∃ events, Grows s t events := by
  cases h with
  | nothing => exact ⟨_, grows_apart hs.lasting rfl rfl⟩
  | index ha => exact ⟨_, grows_quiet hs.lasting ha⟩
  | takesIn htakes _ => exact ⟨_, htakes.grows hs.lasting⟩
  | hands htakes hhands => exact ⟨_, (htakes.grows hs.lasting).trans hhands.toGrows⟩
  | looks _ _ _ _ => exact ⟨_, grows_looked hs.lasting ..⟩
  | begins hmoves _ _ => exact ⟨_, (grows_numbered hs.lasting).trans hmoves.toGrows⟩
  | observes _ hmoves _ _ => exact ⟨_, hmoves.toGrows⟩
  | pays _ hpays => exact ⟨_, hpays.moves.toGrows⟩

end Session

end LiveIndex.Sharing
