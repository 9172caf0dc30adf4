import LiveIndex.Proofs.Keeper.Session

/-! What becomes of the watches and intakes that a keeper has made. A watch that does not run stays
so, an intake that is ended stays so, and a call that ends an intake goes on until it has. -/

namespace LiveIndex.Keeper

namespace Part

/-- What holds at any time of a watch and its intake. -/
structure Sound (p : Part) : Prop where
  watch : ∃ debounce, p.watch.Sound debounce
  starts : p.watch.Starts 0
  started : ∀ result, (0, result) ∈ p.answers → (∃ failure, result = .error failure) ∨
    result = .ok (some true) ∨ result = .ok (some false) ∧ p.watch.watch.running = false
  kept : p.intake.Kept
  woken : p.intake.Woken
  lone : p.intake.Lone
  closing : p.intake.Sealed

/-- What a part may become: it only comes to rest. -/
structure Follows (p q : Part) : Prop where
  running : q.watch.watch.running = true → p.watch.watch.running = true
  ended : p.intake.intake.destroyed = true → q.intake.intake.destroyed = true
  ends : ∀ id, p.intake.Ends id → q.intake.Ends id

variable {p q r : Part}

theorem Follows.refl (p : Part) : p.Follows p :=
  ⟨id, id, fun _ => id⟩

theorem Follows.trans (h : p.Follows q) (h' : q.Follows r) : p.Follows r :=
  ⟨fun hr => h.running (h'.running hr), fun hp => h'.ended (h.ended hp),
    fun id hp => h'.ends id (h.ends id hp)⟩

theorem follows_onWatch (h : p.Sound) {a : Watch.Action} (ha : a ≠ .start) :
    p.Follows (p.onWatch a) := by
  obtain ⟨debounce, hsound⟩ := h.watch
  exact ⟨Watch.Session.running_step hsound ha, id, fun _ => id⟩

theorem follows_onIntake (h : p.Sound) (a : Intake.Action) : p.Follows (p.onIntake a) := by
  refine ⟨id, fun hended => ?_, fun id hends => Intake.Session.ends_step h.kept hends a⟩
  rcases Intake.Session.step_destroyed h.kept a with hsame | ⟨-, hclosed⟩
  · exact hsame.trans hended
  · exact hclosed.destroyed

theorem Sound.onWatch (h : p.Sound) {a : Watch.Action} (ha : a ≠ .start) : (p.onWatch a).Sound := by
  have hfollows := follows_onWatch h ha
  obtain ⟨debounce, hsound⟩ := h.watch
  refine ⟨⟨debounce, hsound.step a⟩, h.starts.step a, fun result hresult => ?_, h.kept, h.woken,
    h.lone, h.closing⟩
  rcases List.mem_append.mp hresult with hresult | hresult
  · refine (h.started result hresult).imp_right (.imp_right (.imp_right fun hidle => ?_))
    exact Bool.eq_false_iff.mpr fun hruns => Bool.eq_false_iff.mp hidle (hfollows.running hruns)
  · exact h.starts.answered (Option.mem_toList.mp hresult)

theorem Sound.onIntake (h : p.Sound) {a : Intake.Action} (hquiet : a ≠ .begin .flush)
    (hpunctual : p.intake.Punctual a) : (p.onIntake a).Sound :=
  ⟨h.watch, h.starts, h.started, Intake.Session.kept_step h.kept a,
    Intake.Session.woken_step h.kept h.woken a,
    Intake.Session.lone_step h.kept h.woken h.lone hpunctual,
    Intake.Session.sealed_step h.kept h.woken h.lone h.closing hquiet⟩

theorem Sound.ending (h : p.Sound) (number : Nat) : (p.ending number).Sound :=
  (h.onWatch (by rintro ⟨⟩)).onIntake (by rintro ⟨⟩) trivial

theorem follows_ending (h : p.Sound) (number : Nat) : p.Follows (p.ending number) :=
  (follows_onWatch h (by rintro ⟨⟩)).trans (follows_onIntake (h.onWatch (by rintro ⟨⟩)) _)

theorem sound_launched (l : Launch) (number : Nat) : (launched l number).Sound := by
  let options := { Feed.Options.default with forcePolling := l.forcePolling }
  have hwatch := Watch.Session.sound_fresh (Path.tidy l.root) l.filter l.watchDebounce true options
  refine ⟨⟨l.watchDebounce, (hwatch.step (.on .event (.intake number))).step .start⟩,
    ⟨Nat.zero_lt_one, ?_⟩, ?_, Intake.Session.kept_fresh .., Intake.Session.woken_fresh ..,
    Intake.Session.lone_fresh .., Intake.Session.sealed_fresh ..⟩
  · intro f hf _
    rcases Watch.Session.mem_advance hf with hf | ⟨-, hturn⟩
    · cases hf
    · exact (congrArg Watch.Waiting.isStart (Turn.ask.inj hturn).2).symm
  · exact fun result hresult => absurd hresult List.not_mem_nil

end Part

/-- Whether the watch with a number runs. -/
def Runs (parts : List Part) (number : Nat) : Prop :=
  ∃ p, parts[number]? = some p ∧ p.watch.watch.running = true

/-- Whether the intake with a number is not ended. -/
def Open (parts : List Part) (number : Nat) : Prop :=
  ∃ p, parts[number]? = some p ∧ p.intake.intake.destroyed = false

/-- Whether a call of the intake with a number is going to end it, or has ended it. -/
def Ending (parts : List Part) (number id : Nat) : Prop :=
  ∃ p, parts[number]? = some p ∧ p.intake.Ends id

/-- What the parts of a keeper may become, without those that are new. -/
structure Later (ps qs : List Part) : Prop where
  length : ps.length ≤ qs.length
  runs : ∀ number < ps.length, Runs qs number → Runs ps number
  opened : ∀ number < ps.length, Open qs number → Open ps number
  ending : ∀ number id, Ending ps number id → Ending qs number id

variable {ps : List Part} {number : Nat}

theorem lt_of_part {p : Part} (h : ps[number]? = some p) : number < ps.length :=
  (List.getElem?_eq_some_iff.mp h).1

theorem lt_of_runs (h : Runs ps number) : number < ps.length := by
  obtain ⟨p, hp, -⟩ := h
  exact lt_of_part hp

theorem lt_of_open (h : Open ps number) : number < ps.length := by
  obtain ⟨p, hp, -⟩ := h
  exact lt_of_part hp

theorem later_refl (ps : List Part) : Later ps ps :=
  ⟨Nat.le_refl _, fun _ _ => id, fun _ _ => id, fun _ _ => id⟩

theorem later_modify {f : Part → Part} (hf : ∀ p, ps[number]? = some p → p.Follows (f p)) :
    Later ps (ps.modify number f) := by
  -- Each part has its place in both lists, and the one follows the other.
  have hforth {n : Nat} {p : Part} (hp : ps[n]? = some p) :
      ∃ q, (ps.modify number f)[n]? = some q ∧ p.Follows q := by
    rw [List.getElem?_modify, hp]
    refine ⟨_, rfl, ?_⟩
    dsimp only
    split
    · next hn => exact hf p (hn ▸ hp)
    · exact .refl p
  have hback {n : Nat} {q : Part} (hq : (ps.modify number f)[n]? = some q) :
      ∃ p, ps[n]? = some p ∧ p.Follows q := by
    have hn := lt_of_part hq
    rw [List.length_modify] at hn
    obtain ⟨q', hq', hfollows⟩ := hforth (List.getElem?_eq_getElem hn)
    cases hq.symm.trans hq'
    exact ⟨_, List.getElem?_eq_getElem hn, hfollows⟩
  refine ⟨(List.length_modify ..).ge, ?_, ?_, ?_⟩
  · rintro n - ⟨q, hq, hruns⟩
    obtain ⟨p, hp, hfollows⟩ := hback hq
    exact ⟨p, hp, hfollows.running hruns⟩
  · rintro n - ⟨q, hq, hopen⟩
    obtain ⟨p, hp, hfollows⟩ := hback hq
    refine ⟨p, hp, Bool.eq_false_iff.mpr fun hended => ?_⟩
    exact Bool.eq_false_iff.mp hopen (hfollows.ended hended)
  · rintro n id ⟨p, hp, hends⟩
    obtain ⟨q, hq, hfollows⟩ := hforth hp
    exact ⟨q, hq, hfollows.ends id hends⟩

theorem sound_modify {f : Part → Part} (h : ∀ p ∈ ps, p.Sound)
    (hf : ∀ p, ps[number]? = some p → p.Sound → (f p).Sound) :
    ∀ p ∈ ps.modify number f, p.Sound := by
  intro q hq
  obtain ⟨n, hq⟩ := List.mem_iff_getElem?.mp hq
  rw [List.getElem?_modify] at hq
  obtain ⟨p, hp, rfl⟩ := Option.map_eq_some_iff.mp hq
  have hsound := h p (List.mem_of_getElem? hp)
  split
  · next hn => exact hf p (hn ▸ hp) hsound
  · exact hsound

theorem later_append (ps qs : List Part) : Later ps (ps ++ qs) := by
  have hsame {n : Nat} (hn : n < ps.length) : (ps ++ qs)[n]? = ps[n]? :=
    List.getElem?_append_left hn
  refine ⟨by rw [List.length_append]; exact Nat.le_add_right .., ?_, ?_, ?_⟩
  · rintro n hn ⟨p, hp, hruns⟩
    exact ⟨p, hsame hn ▸ hp, hruns⟩
  · rintro n hn ⟨p, hp, hopen⟩
    exact ⟨p, hsame hn ▸ hp, hopen⟩
  · rintro n id ⟨p, hp, hends⟩
    exact ⟨p, (hsame (lt_of_part hp)).trans hp, hends⟩

/-- What is asked for changes the parts that there are, or adds one that is sound. -/
theorem later_asked (h : ∀ p ∈ ps, p.Sound) (request : Request) :
    Later ps (asked ps request).1 ∧ ∀ p ∈ (asked ps request).1, p.Sound := by
  have hmem {n : Nat} {p : Part} (hp : ps[n]? = some p) : p.Sound := h p (List.mem_of_getElem? hp)
  cases request with
  | launch settings =>
    refine ⟨later_append .., fun p hp => ?_⟩
    rcases List.mem_append.mp hp with hp | hp
    · exact h p hp
    · rw [List.mem_singleton.mp hp]
      exact Part.sound_launched settings ps.length
  | stopWatching watch =>
    exact ⟨later_modify fun p hp => Part.follows_onWatch (hmem hp) (by rintro ⟨⟩),
      sound_modify h fun p _ hp => hp.onWatch (by rintro ⟨⟩)⟩
  | stopIntake intake =>
    exact ⟨later_modify fun p hp => Part.follows_ending (hmem hp) intake,
      sound_modify h fun p _ hp => hp.ending intake⟩
  | _ => exact ⟨later_refl ps, h⟩

theorem length_asked (ps : List Part) {request : Request}
    (h : ∀ settings, request ≠ .launch settings) : (asked ps request).1.length = ps.length := by
  cases request with
  | launch settings => exact absurd rfl (h settings)
  | stopWatching watch => exact List.length_modify ..
  | stopIntake intake => exact List.length_modify ..
  | _ => rfl

/-- A watch that is stopped does not run. -/
theorem not_runs_stopped (ps : List Part) (watch : Nat) :
    ¬Runs (asked ps (.stopWatching watch)).1 watch := by
  rintro ⟨q, hq, hruns⟩
  change (ps.modify watch _)[watch]? = some q at hq
  rw [List.getElem?_modify] at hq
  obtain ⟨p, -, rfl⟩ := Option.map_eq_some_iff.mp hq
  rw [if_pos rfl] at hruns
  exact Bool.false_ne_true ((Watch.Session.stop_halts p.watch).symm.trans hruns)

/-- The call that an intake is ended with. -/
theorem ending_asked (h : ∀ p ∈ ps, p.Sound) {intake : Nat} (hintake : intake < ps.length) :
    Ending (asked ps (.stopIntake intake)).1 intake
      (ps[intake]?.elim 0 fun p => p.intake.nextId) := by
  have hp := List.getElem?_eq_getElem hintake
  have hsound := (h _ (List.getElem_mem hintake)).onWatch
    (a := .off .event (.intake intake)) (by rintro ⟨⟩)
  refine ⟨ps[intake].ending intake, ?_, ?_⟩
  · change (ps.modify intake _)[intake]? = _
    rw [List.getElem?_modify, hp]
    exact congrArg some (if_pos rfl)
  · rw [hp]
    exact Intake.Session.ends_begin hsound.kept

end LiveIndex.Keeper
