import LiveIndex.Proofs.Keeper.Watching

/-! A keeper at rest after a stop. As long as each start has the keeper to itself, a stop that has
returned leaves nothing at work that the keeper has made. Two starts at once leave a watch behind,
and so does a start after the watch has failed. -/

namespace LiveIndex.Keeper

namespace Session

variable {s t : Session} {a : Action} {listeners : List Listener} {number id : Nat}

/-- Whether a call is a start whose watch has failed, which may leave the watch running. -/
def fails (s : Session) (f : Flight) : Bool :=
  match f.awaited, f.waiting with
  | .watch number id, .launching _ =>
    match s.watchAnswer? number id with
    | some (.error _) => true
    | _ => false
  | _, _ => false

/-- Whether a step leaves each start on its own, and with a watch that has not failed: a start
begins beside a running watch, or when the keeper has stopped and no call goes on. Calls of an
intake take their turn as the loop has them. -/
def Allows (s : Session) : Action → Prop
  | .start _ _ => s.isWatching = true ∨ s.calls = [] ∧ s.keeper.watch = none
  | .intake number a => ∀ p, s.parts[number]? = some p → p.intake.Punctual a
  | .goOn id _ => ∀ f ∈ s.calls, f.id = id → s.fails f = false
  | _ => True

def Orderly : Session → List Action → Prop
  | _, [] => True
  | s, a :: rest => s.Allows a ∧ Orderly (s.step a) rest

theorem orderly_append {before after : List Action} :
    s.Orderly (before ++ after) ↔ s.Orderly before ∧ (s.run before).Orderly after := by
  induction before generalizing s with
  | nil => exact (true_and _).symm ▸ Iff.rfl
  | cons a before ih => exact (and_congr_right' ih).trans and_assoc.symm

theorem mem_of_answer {α : Type} {answers : List (Nat × α)} {result : α}
    (h : (answers.find? (·.1 = id)).map Prod.snd = some result) : (id, result) ∈ answers := by
  obtain ⟨⟨number, result⟩, hx, rfl⟩ := Option.map_eq_some_iff.mp h
  have hid : number = id := of_decide_eq_true (List.find?_some hx :)
  exact hid ▸ List.mem_of_find?_eq_some hx

/-- A start that says that the watch has not started has been halted. -/
theorem Sound.halted (h : s.Sound listeners) {started : Option Bool}
    (hanswer : s.watchAnswer? number 0 = some (.ok started)) (hstarted : started ≠ some true) :
    ¬Runs s.parts number := by
  obtain ⟨p, hp, hfind⟩ := Option.bind_eq_some_iff.mp hanswer
  have hmem := mem_of_answer hfind
  rintro ⟨q, hq, hruns⟩
  cases hp.symm.trans hq
  rcases (h.parts p (List.mem_of_getElem? hp)).started _ hmem with ⟨_, herror⟩ | htrue | ⟨-, hidle⟩
  · cases herror
  · exact hstarted (Except.ok.inj htrue)
  · exact Bool.false_ne_true (hidle.symm.trans hruns)

/-- A call that ends an intake does not fail, and the intake is ended when it answers. -/
theorem Sound.closed (h : s.Sound listeners) {call : Nat} {result : Except Failure Unit}
    (hends : Ending s.parts number call) (hanswer : s.intakeAnswer? number call = some result) :
    result = .ok () ∧ ¬Open s.parts number := by
  obtain ⟨p, hp, hfind⟩ := Option.bind_eq_some_iff.mp hanswer
  have hmem := mem_of_answer hfind
  obtain ⟨q, hq, hends⟩ := hends
  cases hp.symm.trans hq
  refine ⟨hends.answers _ hmem, ?_⟩
  rintro ⟨r, hr, hopen⟩
  cases hp.symm.trans hr
  have hended := hends.destroyed (h.parts p (List.mem_of_getElem? hp)).kept hmem
  exact Bool.false_ne_true (hopen.symm.trans hended)

theorem stepped_start (h : s.Sound listeners) (env : Environment) (l : Option Listener)
    (hallows : s.Allows (.start env l)) : Stepped s (s.step (.start env l)) := by
  have ht := taken_new h.numbered
  change Stepped s (s.launch (s.keeper.beginWatching env s.isWatching l))
  unfold beginWatching
  split
  · exact .answers ht rfl rfl rfl (by rintro _ ⟨⟩) (by rintro _ ⟨⟩) (by rintro ⟨⟩)
  · next hidle =>
    obtain ⟨hcalls, hwatch⟩ := hallows.resolve_left hidle
    split
    · exact .answers ht rfl rfl rfl (by rintro _ ⟨⟩) (by rintro _ ⟨⟩) (by rintro ⟨⟩)
    · next settings _ => exact .launches ht hcalls hwatch settings l

theorem stepped_stop (h : s.Sound listeners) (after : AfterStop) :
    Stepped s (s.step (.stop after)) := by
  have ht := taken_new h.numbered
  change Stepped s (s.launch (s.keeper.beginStop after))
  unfold beginStop
  split
  · next watch hwatch => exact .halts ht hwatch after
  · next hnone =>
    unfold Keeper.stopIntake
    split
    · next intake hknown =>
      refine .closes ht hnone (fun number hnumber => ?_) rfl rfl (by rintro _ ⟨⟩) hknown after
      cases hnone.symm.trans hnumber
    · next hintake =>
      refine .stops ht (.inl rfl) rfl rfl (by rintro _ ⟨⟩) (by rintro _ ⟨⟩) ?_ after
      intro number hnumber
      cases hintake.symm.trans hnumber

/-- A call goes on whose turn it is. -/
theorem stepped_goOn (h : s.Sound listeners) {f : Flight} {ended : Except Failure Unit}
    {work : Work} (hfind : s.calls.find? (·.id = id) = some f) (hlasts : s.fails f = false)
    (hwork : s.workOf f ended = some work) : Stepped s ((s.without f).advance f.id work) := by
  have ht := taken_call h.numbered hfind
  have hmem := List.mem_of_find?_eq_some hfind
  cases h.owned.awaits f hmem with
  | @start id number l hlt =>
    obtain ⟨result, hanswer, rfl⟩ := Option.map_eq_some_iff.mp hwork
    cases result with
    | error failure =>
      simp only [fails, hanswer] at hlasts
      cases hlasts
    | ok started =>
      by_cases hstarted : started = some true
      · subst hstarted
        exact .keeps ht ⟨l, 0, rfl, rfl⟩ l
      · have hlaunched : s.keeper.launched l ((Except.ok started).map fun started =>
            (number, number, (started = some true : Bool))) =
              .ask s.keeper [] (.stopIntake number) .discarding := by
          rw [Except.map, decide_eq_false hstarted]
          rfl
        rw [hlaunched]
        exact .discards ht ⟨l, 0, rfl, rfl⟩ (h.halted hanswer hstarted)
  | @halt id number call after hidle hwatch =>
    obtain ⟨result, hanswer, rfl⟩ := Option.map_eq_some_iff.mp hwork
    have hhalted : ∀ watch, s.keeper.watch = some watch → ¬Runs s.parts watch :=
      fun watch hsome => hwatch watch hsome ▸ hidle
    have hhalts : Flight.Halts ⟨id, .watch number call, .stoppingWatch after⟩ := ⟨after, rfl⟩
    cases result with
    | error failure =>
      refine .answers ht rfl rfl rfl ?_ (fun _ _ _ => ⟨failure, rfl⟩) (by rintro ⟨⟩)
      rintro _ ⟨⟩
      refine ⟨rfl, ?_⟩
      rintro _ ⟨_, _, ⟨⟩, _⟩
    | ok _ =>
      change Stepped s ((s.without _).advance id ({ s.keeper with watch := none }.stopIntake after))
      unfold Keeper.stopIntake
      split
      · next intake hknown =>
        refine .closes (k := { s.keeper with watch := none }) ht rfl hhalted rfl rfl ?_ hknown after
        rintro _ ⟨⟩
        exact hhalts
      · next hintake =>
        refine .stops (k := { s.keeper with watch := none }) ht (.inr ⟨rfl, hhalted⟩) rfl rfl ?_
          (fun _ _ _ => rfl) (fun number hnumber => ?_) after
        · rintro _ ⟨⟩
          rfl
        · cases hintake.symm.trans hnumber
  | @discard id number call hends =>
    obtain ⟨result, hanswer, rfl⟩ := Option.map_eq_some_iff.mp hwork
    obtain ⟨rfl, hclosed⟩ := h.closed hends hanswer
    exact .discarded ht ⟨rfl, call, rfl⟩ hclosed
  | @close id number call after hends =>
    obtain ⟨result, hanswer, rfl⟩ := Option.map_eq_some_iff.mp hwork
    obtain ⟨rfl, hclosed⟩ := h.closed hends hanswer
    refine .stops ht (.inl rfl) rfl rfl ?_ ?_ (fun n hn hopen => ?_) after
    · rintro _ ⟨⟩
      rfl
    · rintro _ ⟨⟩ ⟨_, ⟨⟩⟩
    · -- An intake that another call ends is left to that call, and this one's is ended.
      refine (h.stopped n hn hopen).imp_right ?_
      rintro ⟨c, hc, hcloses⟩
      refine ⟨c, (ht.others c hc).resolve_right ?_, hcloses⟩
      rintro ⟨⟩
      obtain ⟨_, _, _, ⟨⟩⟩ := hcloses
      exact hclosed hopen
  | index =>
    cases hwork
    cases ended with
    | error failure =>
      refine .answers ht rfl rfl rfl ?_ (fun _ _ _ => ⟨failure, rfl⟩) (by rintro ⟨⟩)
      rintro _ ⟨⟩
      refine ⟨rfl, ?_⟩
      rintro _ ⟨_, _, ⟨⟩, _⟩
    | ok _ =>
      refine .answers ht rfl rfl rfl ?_ ?_ (by rintro ⟨⟩)
      · rintro _ ⟨⟩
        refine ⟨rfl, ?_⟩
        rintro _ ⟨_, _, ⟨⟩, _⟩
      · rintro _ ⟨⟩ ⟨_, ⟨⟩⟩

theorem step_stepped (h : s.Sound listeners) (hallows : s.Allows a) : Stepped s (s.step a) := by
  have hwatch {number : Nat} {a : Watch.Action} (ha : a ≠ .start) :
      Stepped s { s with parts := s.parts.modify number (·.onWatch a) } :=
    .parts fun p _ hp => ⟨Part.follows_onWatch hp ha, hp.onWatch ha⟩
  have hintake {number : Nat} {a : Intake.Action} (hquiet : a ≠ .begin .flush)
      (hpunctual : ∀ p, s.parts[number]? = some p → p.intake.Punctual a) :
      Stepped s { s with parts := s.parts.modify number (·.onIntake a) } :=
    .parts fun p hp hsound =>
      ⟨Part.follows_onIntake hsound a, hsound.onIntake hquiet (hpunctual p hp)⟩
  cases a with
  | start env l => exact stepped_start h env l hallows
  | stop after => exact stepped_stop h after
  | watch number a =>
    cases a with
    | start => exact .same
    | stop => exact .same
    | _ => exact hwatch (by rintro ⟨⟩)
  | intake number a =>
    cases a with
    | begin call =>
      cases call with
      | flush => exact .same
      | destroy => exact .same
      | _ => exact hintake (by rintro ⟨⟩) hallows
    | _ => exact hintake (by rintro ⟨⟩) hallows
  | dropIndex => exact .drops
  | goOn id ended =>
    unfold step
    dsimp only
    split
    · next f hfind =>
      split
      · next work hwork =>
        have hid : f.id = id := of_decide_eq_true (List.find?_some hfind :)
        exact stepped_goOn h hfind (hallows f (List.mem_of_find?_eq_some hfind) hid) hwork
      · exact .same
    · exact .same

/-- What each step keeps holds after a run. -/
theorem Sound.run_induction {P : Session → Prop} (h : s.Sound listeners) (hs : P s)
    (hstep : ∀ s t : Session, s.Sound listeners → P s → Stepped s t → P t) {actions : List Action}
    (horderly : s.Orderly actions) : (s.run actions).Sound listeners ∧ P (s.run actions) := by
  induction actions generalizing s with
  | nil => exact ⟨h, hs⟩
  | cons a rest ih =>
    have hstepped := step_stepped h horderly.1
    exact ih (h.stepped hstepped) (hstep _ _ h hs hstepped) horderly.2

/-- Once a stop has begun that has not failed, it still waits for the watch, the keeper has none, or
a start has been over since. -/
structure Stops (old : List (Nat × Except Failure Answer)) (id : Nat) (s : Session) : Prop where
  kept : old ⊆ s.answers
  stands : s.keeper.watch = none ∨ (∃ c ∈ s.calls, c.id = id ∧ c.Halts) ∨
    (∃ failure, (id, .error failure) ∈ s.answers) ∨
      ∃ x, (x, .ok (.flag true)) ∈ s.answers ∧ (x, .ok (.flag true)) ∉ old

variable {old : List (Nat × Except Failure Answer)}

/-- What no start is over in leaves a stop to go on. -/
theorem Stops.aside (h : Stops old id s) (hanswers : s.answers ⊆ t.answers)
    (hwatch : t.keeper.watch = s.keeper.watch ∨ t.keeper.watch = none)
    (hcalls : ∀ c ∈ s.calls, c.Halts → c ∈ t.calls ∨ t.keeper.watch = none ∨
      ∃ failure, (c.id, .error failure) ∈ t.answers) : Stops old id t := by
  refine ⟨List.Subset.trans h.kept hanswers, ?_⟩
  rcases h.stands with hnone | ⟨c, hc, rfl, hhalts⟩ | ⟨failure, hfails⟩ | ⟨x, hx, hnew⟩
  · exact .inl (hwatch.elim (fun hsame => hsame.trans hnone) fun hnow => hnow)
  · rcases hcalls c hc hhalts with hstays | hnone | hfails
    · exact .inr (.inl ⟨c, hstays, rfl, hhalts⟩)
    · exact .inl hnone
    · exact .inr (.inr (.inl hfails))
  · exact .inr (.inr (.inl ⟨failure, hanswers hfails⟩))
  · exact .inr (.inr (.inr ⟨x, hanswers hx, hnew⟩))

theorem Stops.stepped (h : Stops old id s) (hstep : Stepped s t) : Stops old id t := by
  have hmore {answer : Nat × Except Failure Answer} : s.answers ⊆ s.answers ++ [answer] :=
    List.subset_append_left ..
  cases hstep with
  | same => exact h
  | parts hg => exact h.aside (List.Subset.refl _) (.inl rfl) fun _ hc _ => .inl hc
  | drops => exact h.aside (List.Subset.refl _) (.inl rfl) fun _ hc _ => .inl hc
  | answers ht hwatch _ _ _ hfails _ =>
    refine h.aside hmore (.inl hwatch) fun c hc hhalts => ?_
    rcases ht.others c hc with hstays | hgoes
    · exact .inl hstays
    · obtain ⟨failure, rfl⟩ := hfails c hgoes hhalts
      rw [(ht.taken c hgoes).2]
      exact .inr (.inr ⟨failure, List.mem_append_right _ (List.mem_singleton_self _)⟩)
  | launches ht _ _ settings l =>
    exact h.aside (List.Subset.refl _) (.inl rfl) fun _ hc _ => .inl (List.mem_append_left _ hc)
  | halts ht _ after =>
    refine h.aside (List.Subset.refl _) (.inl rfl) fun c hc _ => .inl ?_
    exact List.mem_append_left _ ((ht.others c hc).resolve_right (by rintro ⟨⟩))
  | closes ht hwatch _ _ _ _ _ after =>
    exact h.aside (List.Subset.refl _) (.inr hwatch) fun _ _ _ => .inr (.inl hwatch)
  | @stops calls nextId _ f k ht hwatch _ _ _ hhalts _ after =>
    have hstays {c : Flight} (hc : c ∈ s.calls) (hc' : c.Halts) : c ∈ calls ∨ k.watch = none :=
      (ht.others c hc).imp_right fun hgoes => hhalts c hgoes hc'
    have hnow := hwatch.imp_right And.left
    cases after with
    | answer => exact h.aside hmore hnow fun c hc hc' => (hstays hc hc').imp_right .inl
    | destroy =>
      exact h.aside (List.Subset.refl _) hnow fun c hc hc' =>
        (hstays hc hc').imp (List.mem_append_left _) .inl
  | @keeps calls nextId x number c ht hc l =>
    have hover : ∃ keeper index, (s.taking calls nextId).advance x
        (s.keeper.launched l (.ok (number, number, true))) = { s.taking calls nextId with
          keeper, index, answers := s.answers ++ [(x, .ok (.flag true))] } := by
      cases l with
      | none => exact ⟨_, _, rfl⟩
      | some l => exact ⟨_, _, rfl⟩
    obtain ⟨keeper, index, hover⟩ := hover
    rw [hover]
    -- The call had not answered before, so this is not an answer of the old ones.
    refine ⟨List.Subset.trans h.kept hmore, .inr (.inr (.inr ⟨x, ?_, fun hold => ?_⟩))⟩
    · exact List.mem_append_right _ (List.mem_singleton_self _)
    · exact ht.unanswered _ (h.kept hold) rfl
  | discards ht hc _ =>
    refine h.aside (List.Subset.refl _) (.inl rfl) fun c' hc' hhalts => .inl ?_
    refine List.mem_append_left _ ((ht.others c' hc').resolve_right ?_)
    rintro ⟨⟩
    cases hc.isStart.symm.trans hhalts.not_start
  | discarded ht hc _ =>
    refine h.aside hmore (.inl rfl) fun c' hc' hhalts => .inl ?_
    refine (ht.others c' hc').resolve_right ?_
    rintro ⟨⟩
    cases hc.isStart.symm.trans hhalts.not_start

theorem stops_begin (s : Session) (after : AfterStop) :
    Stops s.answers s.nextId (s.step (.stop after)) := by
  change Stops s.answers s.nextId (s.launch (s.keeper.beginStop after))
  unfold beginStop
  split
  · next watch _ =>
    refine ⟨List.Subset.refl _, .inr (.inl ?_)⟩
    exact ⟨_, List.mem_append_right _ (List.mem_singleton_self _), rfl, after, rfl⟩
  · next hnone =>
    unfold Keeper.stopIntake
    split
    · exact ⟨List.Subset.refl _, .inl hnone⟩
    · cases after with
      | answer => exact ⟨List.subset_append_left .., .inl hnone⟩
      | destroy => exact ⟨List.Subset.refl _, .inl hnone⟩

/-- Nothing that a keeper has made is at work: no watch runs, each intake is ended and has nothing
queued and no timer, and there are no listeners but those from before. -/
structure Still (listeners : List Listener) (s : Session) : Prop where
  watches : ∀ p ∈ s.parts, p.watch.watch.running = false
  intakes : ∀ p ∈ s.parts, Intake.Closed p.intake.intake ∧
    p.intake.quietTimers = [] ∧ p.intake.gatherTimers = []
  listeners : ∀ l ∈ s.index.listeners, l ∈ listeners

theorem Sound.still (h : s.Sound listeners) (hcalls : s.calls = [])
    (hwatch : s.keeper.watch = none) : Still listeners s := by
  obtain ⟨hidle, hclosed, hsilent⟩ := h.at_rest hcalls hwatch
  refine ⟨fun p hp => ?_, fun p hp => ?_, fun l hl => ?_⟩
  · obtain ⟨number, hp⟩ := List.mem_iff_getElem?.mp hp
    exact Bool.eq_false_iff.mpr fun hruns => hidle number ⟨p, hp, hruns⟩
  · have hsound := h.parts p hp
    obtain ⟨number, hp⟩ := List.mem_iff_getElem?.mp hp
    have hended : p.intake.intake.destroyed = true :=
      Bool.of_not_eq_false fun hopen => hclosed number ⟨p, hp, hopen⟩
    have hclosed := (hsound.closing.closed hended).1
    exact ⟨hclosed, Intake.Session.timers_of_closed hsound.woken.wound hclosed⟩
  · refine (h.registered l hl).resolve_right fun hown => ?_
    cases hsilent.symm.trans hown

end Session

/-- Whether a keeper has no watch, no intake and no listener. -/
structure Idle (k : Keeper) : Prop where
  watch : k.watch = none
  intake : k.intake = none
  listener : k.listener = none

theorem idle_create {env : Environment} {d : Disk} {o : Options} {index : Nat} {k : Keeper}
    {limit : Int} (h : create env d o index = .ok (k, limit)) : k.Idle := by
  unfold create at h
  simp only [bind, Except.bind, pure, Except.pure] at h
  split at h
  · cases h
  · split at h
    · cases h
    · split at h
      · cases h
      · cases h
        exact ⟨rfl, rfl, rfl⟩

namespace Session

theorem sound_fresh {k : Keeper} (hidle : k.Idle) (index : Index) :
    (fresh k index).Sound index.listeners := by
  have hnobody {number : Nat} {p : Part} : ([] : List Part)[number]? ≠ some p := by rintro ⟨⟩
  refine ⟨fun _ hp => absurd hp List.not_mem_nil, ⟨List.nodup_nil, ?_, ?_, List.nodup_nil⟩,
    ⟨fun number hnumber => ?_, ?_, ?_, ?_, ?_⟩, fun _ => .inl, fun l hl => ?_, ?_, ?_⟩
  · exact fun _ hc => absurd hc List.not_mem_nil
  · exact fun _ hx => absurd hx List.not_mem_nil
  · cases hidle.intake.symm.trans hnumber
  · exact fun _ hc => absurd hc List.not_mem_nil
  · exact fun _ hc => absurd hc List.not_mem_nil
  · exact fun _ ⟨_, hp, _⟩ => absurd hp hnobody
  · exact fun _ ⟨_, hp, _⟩ => absurd hp hnobody
  · exact (List.count_eq_zero.mpr hl).trans_le (Nat.zero_le 1)
  · exact fun _ _ ⟨_, hp, _⟩ => absurd hp hnobody
  · intro l hl
    cases hidle.listener.symm.trans hl

/-- When a stop has returned, no call goes on and no start has been over since that stop began, then
nothing that the keeper has made is at work. -/
theorem stop_leaves_nothing {k : Keeper} (hidle : k.Idle) (index : Index)
    (before after : List Action) (stop : AfterStop) :
    let s := (fresh k index).run before
    let t := (s.step (.stop stop)).run after
    (fresh k index).Orderly (before ++ .stop stop :: after) →
      (s.nextId, .ok .nothing) ∈ t.answers → t.calls = [] →
        (∀ id, (id, .ok (.flag true)) ∈ t.answers → (id, .ok (.flag true)) ∈ s.answers) →
          Still index.listeners t := by
  intro s t horderly hover hcalls hnone
  obtain ⟨hbefore, hallows, hafter⟩ := orderly_append.mp horderly
  have hsound : s.Sound index.listeners :=
    ((sound_fresh hidle index).run_induction trivial (fun _ _ _ _ _ => trivial) hbefore).1
  have hstep := step_stepped hsound hallows
  obtain ⟨hsound, hstops⟩ := (hsound.stepped hstep).run_induction (stops_begin s stop)
    (fun _ _ _ h => h.stepped) hafter
  -- The stop is over and has not failed, so the keeper has a watch only if it was given one since.
  refine hsound.still hcalls ?_
  rcases hstops.stands with hwatch | ⟨c, hc, -⟩ | ⟨failure, hfails⟩ | ⟨x, hx, hnew⟩
  · exact hwatch
  · cases hcalls ▸ hc
  · cases List.inj_on_of_nodup_map hsound.numbered.once hover hfails rfl
  · exact absurd (hnone x hx) hnew

/-- A keeper of text files that has made nothing. -/
def textKeeper : Keeper :=
  ⟨"/r", "/r/.index-cache/index.json", [".txt"], [cacheDir], 0, none, none, none, false, .free⟩

/-- A session without settings. -/
def textSession : Session :=
  fresh textKeeper (.create .default)

def startFor (label : String) : Action :=
  .start ⟨[], "/home"⟩ (some (.recorder label false))

/-- A watch starts on an empty tree. -/
def watchStarts (number : Nat) : List Action :=
  [.watch number (.resume 0 (.walked 0 (.ok []))), .watch number (.resume 0 (.served 0 (.ok ())))]

/-- The backend of a watch stops, and a call that waits for it goes on to its end. -/
def watchStops (number id : Nat) : List Action :=
  [.watch number (.resume 1 (.served 0 (.ok ()))), .goOn id (.ok ()), .goOn id (.ok ())]

theorem stop_leaves_nothing_once :
    let s := textSession.run (startFor "a" :: watchStarts 0 ++ [.goOn 0 (.ok ())])
    let t := (s.step (.stop .answer)).run (watchStops 0 1)
    t.answers = [(0, .ok (.flag true)), (1, .ok .nothing)] ∧ t.parts.length = 1 ∧ Still [] t := by
  intro s t
  have horderly : textSession.Orderly ((startFor "a" :: watchStarts 0 ++ [.goOn 0 (.ok ())]) ++
      .stop .answer :: watchStops 0 1) := by
    refine ⟨.inr ⟨rfl, rfl⟩, trivial, trivial, ?_, trivial, trivial, ?_, ?_, trivial⟩
    all_goals
      unfold Allows
      decide +kernel
  have hbefore : s.answers = [(0, .ok (.flag true))] := rfl
  have hanswers : t.answers = [(0, .ok (.flag true)), (1, .ok .nothing)] := rfl
  have hmade : t.parts.length = 1 := by decide +kernel
  have hover : (s.nextId, .ok .nothing) ∈ t.answers := by
    rw [hanswers]
    exact List.mem_cons_of_mem _ (List.mem_singleton_self _)
  have hnone : ∀ id, (id, .ok (.flag true)) ∈ t.answers → (id, .ok (.flag true)) ∈ s.answers := by
    rw [hanswers, hbefore]
    intro id hid
    rcases List.mem_cons.mp hid with hid | hid
    · exact List.mem_singleton.mpr hid
    · cases List.mem_singleton.mp hid
  have hstill := stop_leaves_nothing (k := textKeeper) ⟨rfl, rfl, rfl⟩ (.create .default)
    (startFor "a" :: watchStarts 0 ++ [.goOn 0 (.ok ())]) (watchStops 0 1) .answer
  exact ⟨hanswers, hmade, hstill horderly hover rfl hnone⟩

/-- Two starts at once make two watches, and a start after the watch has failed makes a second one
too. The stop after them halts one watch, ends one intake and takes one listener out. -/
theorem starts_leave_something :
    let s := textSession.run (startFor "a" :: startFor "b" :: watchStarts 0 ++ watchStarts 1 ++
      [.goOn 0 (.ok ()), .goOn 1 (.ok ())])
    let t := (s.step (.stop .answer)).run (watchStops 1 2)
    let s' := textSession.run (startFor "a" :: watchStarts 0 ++ [.goOn 0 (.ok ()),
      .watch 0 (.fail (.crash "gone")), startFor "b"] ++ watchStarts 1 ++ [.goOn 1 (.ok ())])
    let t' := (s'.step (.stop .answer)).run (watchStops 1 2)
    (t.answers = [(0, .ok (.flag true)), (1, .ok (.flag true)), (2, .ok .nothing)] ∧
      t.calls = [] ∧ t.parts.map (·.watch.watch.running) = [true, false] ∧
      t.parts.map (·.intake.intake.destroyed) = [false, true] ∧
      t.index.listeners = [.recorder "a" false]) ∧
    t'.answers = [(0, .ok (.flag true)), (1, .ok (.flag true)), (2, .ok .nothing)] ∧
      t'.calls = [] ∧ t'.parts.map (·.intake.intake.destroyed) = [false, true] ∧
      t'.index.listeners = [.recorder "a" false] := by
  refine ⟨⟨rfl, rfl, ?_, ?_, ?_⟩, rfl, rfl, ?_, ?_⟩
  all_goals decide +kernel

end Session

end LiveIndex.Keeper
