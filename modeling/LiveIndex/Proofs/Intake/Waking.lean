import LiveIndex.Proofs.Intake.Turns

/-! Nothing is queued that is not waited for. A timer is armed, or a batch has been started and is
not over, or one is being applied; and from there the queue is taken without anything being asked of
the intake. -/

namespace LiveIndex.Intake

/-- What happens without anything being asked of the intake: a timer rings, a batch that is due
begins, or a call goes on. -/
def Action.Unasked : Action → Prop
  | .begin _ => False
  | _ => True

namespace Session

variable {s r t : Session} {a : Action} {f : Option Flight} {work : Work}

/-- The timers of a session and the batch that was started last are those that the intake knows of,
and what is queued is waited for. -/
structure Woken (s : Session) : Prop where
  wound : Wound s.intake s
  batch : ∀ ticket, s.intake.batch = some ticket → s.isRunning ticket = true
  attended : Attended s.intake

theorem isRunning_iff {ticket : Nat} : s.isRunning ticket = true ↔
    ticket ∈ s.due ∨ ∃ g ∈ s.flights, g.ticket = some ticket := by
  simp only [isRunning, Bool.or_eq_true, decide_eq_true_eq, List.any_eq_true]

theorem wound_of_timers {ix : Intake} (h : Wound ix s) (hquiet : t.quietTimers = s.quietTimers)
    (hgather : t.gatherTimers = s.gatherTimers) : Wound ix t :=
  ⟨hquiet.trans h.quiet, hgather.trans h.gather, h.quietBelow, h.gatherBelow, h.apart⟩

theorem wound_advance {ix : Intake} (hwinds : Winds ix work.effects work.state) (hr : Wound ix r)
    (id : Nat) (ticket : Option Nat) :
    Wound work.state (r.advance id ticket work) ∧ (r.advance id ticket work).due = r.due := by
  obtain ⟨hwound, hdue⟩ := hwinds
    { r.note (beginning r.intake work.state) with intake := work.state }
    (wound_of_timers hr rfl rfl)
  unfold advance
  dsimp only
  cases work.turn with
  | done result => exact ⟨wound_of_timers hwound rfl rfl, hdue⟩
  | ask request waiting => exact ⟨wound_of_timers hwound rfl rfl, hdue⟩

theorem Doing.winds (h : s.Kept) (hdoing : s.Doing a f work) :
    Winds s.intake work.effects work.state := by
  rcases hdoing.acts_or_admits h with ⟨purpose, -, hacts⟩ | ⟨-, hadmits⟩
  · exact hacts.winds
  · exact hadmits.winds

theorem wound_works (h : s.Kept) (hwound : Wound s.intake s) (hdoing : s.Doing a f work) :
    let t := (s.ready a f).advance (s.idOf f) (ticketOf a f) work
    Wound t.intake t ∧ t.due = (s.ready a f).due := by
  intro t
  have hready : Wound s.intake (s.ready a f) :=
    wound_of_timers hwound (ready_quietTimers ..) (ready_gatherTimers ..)
  obtain ⟨hafter, hdue⟩ := wound_advance (hdoing.winds h) hready (s.idOf f) (ticketOf a f)
  refine ⟨?_, hdue⟩
  rw [advance_intake]
  exact hafter

/-- A batch runs on, unless its work is done and it is over. -/
theorem isRunning_works (h : s.Kept) (hwound : Wound s.intake s) (hdoing : s.Doing a f work)
    {ticket : Nat} (hrunning : s.isRunning ticket = true) :
    ((s.ready a f).advance (s.idOf f) (ticketOf a f) work).isRunning ticket = true ∨
      ticketOf a f = some ticket ∧ ∃ result, work.turn = .done result := by
  have hflights := advance_flights (s.ready a f) (s.idOf f) (ticketOf a f) work
  obtain ⟨-, hdue⟩ := wound_works h hwound hdoing
  rw [ready_flights] at hflights
  -- The work goes on as a call of the same batch unless it is done.
  have hown (hticket : ticketOf a f = some ticket) :
      ((s.ready a f).advance (s.idOf f) (ticketOf a f) work).isRunning ticket = true ∨
        ticketOf a f = some ticket ∧ ∃ result, work.turn = .done result := by
    cases hturn : work.turn with
    | done result => exact .inr ⟨hticket, result, rfl⟩
    | ask request waiting =>
      refine .inl (isRunning_iff.mpr (.inr ⟨⟨s.idOf f, ticketOf a f, request, waiting⟩, ?_, hticket⟩))
      rw [hflights, hturn]
      exact List.mem_append_right _ List.mem_cons_self
  rcases isRunning_iff.mp hrunning with hmem | ⟨g, hg, hticket⟩
  · cases f with
    | some f =>
      refine .inl (isRunning_iff.mpr (.inl ?_))
      rw [hdue]
      exact hmem
    | none =>
      by_cases ha : a = .startBatch ticket
      · subst ha
        exact hown rfl
      · refine .inl (isRunning_iff.mpr (.inl ?_))
        rw [hdue]
        cases a with
        | startBatch other =>
          exact (List.mem_erase_of_ne fun hsame => ha (by rw [hsame])).mpr hmem
        | begin call => exact hmem
        | quiet ticket => exact hmem
        | gather ticket => exact hmem
        | resume id reply => exact hmem
  · by_cases hmem : g ∈ f
    · obtain rfl := Option.mem_def.mp hmem
      exact hown hticket
    · refine .inl (isRunning_iff.mpr (.inr ⟨g, ?_, hticket⟩))
      rw [hflights]
      exact List.mem_append_left _ (mem_others hdoing hg hmem)

theorem woken_works (h : s.Kept) (hwoken : s.Woken) (hdoing : s.Doing a f work) :
    ((s.ready a f).advance (s.idOf f) (ticketOf a f) work).Woken := by
  have hintake := advance_intake (s.ready a f) (s.idOf f) (ticketOf a f) work
  refine ⟨(wound_works h hwoken.wound hdoing).1, ?_, ?_⟩
  · intro ticket hbatch
    rw [hintake] at hbatch
    rcases hdoing.acts_or_admits h with ⟨purpose, hpurpose, hacts⟩ | ⟨hpurpose, hadmits⟩
    · rcases hacts.batch with hsame | ⟨hnone, -⟩
      · rw [hsame] at hbatch
        rcases isRunning_works h hwoken.wound hdoing (hwoken.batch ticket hbatch) with
          hrunning | ⟨hticket, result, hturn⟩
        · exact hrunning
        · -- A batch that is over is not the one that was started last.
          have hended := (hacts.ends result hturn).2
          rw [purposeOf_ticket h hdoing hticket] at hpurpose
          cases hpurpose
          exact absurd (hsame.trans hbatch) hended.2
      · rw [hnone] at hbatch
        cases hbatch
    · rw [hadmits.batch] at hbatch
      rcases isRunning_works h hwoken.wound hdoing (hwoken.batch ticket hbatch) with
        hrunning | ⟨hticket, -⟩
      · exact hrunning
      · rw [purposeOf_ticket h hdoing hticket] at hpurpose
        cases hpurpose
  · rw [hintake]
    rcases hdoing.acts_or_admits h with ⟨purpose, -, hacts⟩ | ⟨-, hadmits⟩
    · exact hacts.attended
    · exact hadmits.attended hwoken.attended

theorem woken_quiet (h : s.Woken) {ticket : Nat} (ht : ticket ∈ s.quietTimers) :
    ({ s with quietTimers := s.quietTimers.erase ticket }.change s.intake.quiet.1
      s.intake.quiet.2).Woken := by
  obtain ⟨hquiet, hgather, hquietBelow, hgatherBelow, hapart⟩ := h.wound
  have hnone : s.quietTimers.erase ticket = [] := by
    rw [hquiet, Option.mem_toList] at ht
    rw [hquiet, Option.mem_def.mp ht, Option.toList_some, List.erase_cons_head]
  obtain ⟨hwound, hdue⟩ := winds_quiet s.intake
    { s with quietTimers := s.quietTimers.erase ticket, intake := s.intake.quiet.1 }
    ⟨hnone, hgather, nofun, hgatherBelow, nofun⟩
  refine ⟨?_, ?_, ?_⟩
  · rw [change_intake]
    exact hwound
  · intro t hbatch
    rw [change_intake] at hbatch
    rw [isRunning_iff, change_flights]
    exact (isRunning_iff.mp (h.batch t hbatch)).imp_left fun hmem => hdue.symm ▸ hmem
  · rw [change_intake]
    exact .inl fun _ _ => .inr (.inr rfl)

theorem woken_gather (h : s.Woken) {ticket : Nat} (ht : ticket ∈ s.gatherTimers) :
    ({ s with gatherTimers := s.gatherTimers.erase ticket }.change s.intake.gathered.1
      s.intake.gathered.2).Woken := by
  obtain ⟨hquiet, hgather, hquietBelow, hgatherBelow, hapart⟩ := h.wound
  have hnone : s.gatherTimers.erase ticket = [] := by
    rw [hgather, Option.mem_toList] at ht
    rw [hgather, Option.mem_def.mp ht, Option.toList_some, List.erase_cons_head]
  unfold Intake.gathered
  dsimp only
  split
  · next hidle =>
    refine ⟨⟨hquiet, hnone, hquietBelow, nofun, fun _ _ => nofun⟩, h.batch, .inl ?_⟩
    intro _ hsome
    rw [Bool.or_eq_true] at hidle
    rcases hidle with hbusy | hempty
    · exact .inl hbusy
    · exact absurd (hempty.symm.trans hsome) nofun
  · refine ⟨⟨hquiet, hnone, ?_, nofun, fun _ _ => nofun⟩, ?_, .inr rfl⟩
    · exact fun t ht => Nat.lt_succ_of_lt (hquietBelow t ht)
    · rintro t ⟨⟩
      exact isRunning_iff.mpr (.inl (List.mem_append_right _ List.mem_cons_self))

theorem woken_step (h : s.Kept) (hwoken : s.Woken) (a : Action) : (s.step a).Woken := by
  obtain ⟨t, ht⟩ : ∃ t, t = s.step a := ⟨_, rfl⟩
  have hstepped := s.step_stepped a
  rw [← ht] at hstepped ⊢
  cases hstepped with
  | same => exact hwoken
  | quiet _ hmem => exact woken_quiet hwoken hmem
  | gather _ hmem => exact woken_gather hwoken hmem
  | works hdoes => exact woken_works h hwoken hdoes.doing

theorem woken_fresh (root : String) (options : Options) : (fresh root options).Woken :=
  ⟨⟨rfl, rfl, nofun, nofun, nofun⟩, nofun, .inl fun _ hsome => nomatch hsome⟩

theorem woken_run (h : s.Kept) (hwoken : s.Woken) (actions : List Action) :
    (s.run actions).Woken := by
  induction actions generalizing s with
  | nil => exact hwoken
  | cons a actions ih => exact ih (kept_step h a) (woken_step h hwoken a)

theorem Woken.awaited (hwoken : s.Woken) (h : s.Kept) (hlive : s.intake.destroyed = false)
    (hsome : s.intake.queue.isEmpty = false) :
    s.quietTimers ≠ [] ∨ s.gatherTimers ≠ [] ∨ (∃ ticket, s.isRunning ticket = true) ∨
      s.stages ≠ [] := by
  obtain ⟨stage, hstages, hbusy⟩ := h.busy
  have hne {o : Option Nat} (ho : o.isSome = true) : o.toList ≠ [] := by
    obtain ⟨t, rfl⟩ := Option.isSome_iff_exists.mp ho
    exact List.cons_ne_nil _ _
  rcases hwoken.attended with hawake | hbatch
  · rcases hawake hlive hsome with hprocessing | hquiet | hgather
    · refine .inr (.inr (.inr ?_))
      rw [hprocessing] at hbusy
      obtain ⟨g, rfl⟩ := Option.isSome_iff_exists.mp hbusy.symm
      rw [hstages]
      exact List.cons_ne_nil _ _
    · exact .inl (hwoken.wound.quiet ▸ hne hquiet)
    · exact .inr (.inl (hwoken.wound.gather ▸ hne hgather))
  · obtain ⟨ticket, hticket⟩ := Option.isSome_iff_exists.mp hbatch
    exact .inr (.inr (.inl ⟨ticket, hwoken.batch ticket hticket⟩))

theorem run_append (s : Session) (first second : List Action) :
    s.run (first ++ second) = (s.run first).run second :=
  List.foldl_append

theorem trace_run (s : Session) (actions : List Action) :
    ∃ new, (s.run actions).trace = s.trace ++ new := by
  induction actions generalizing s with
  | nil => exact ⟨[], (List.append_nil _).symm⟩
  | cons a actions ih =>
    obtain ⟨new, hnew, -⟩ := s.step_trace a
    obtain ⟨more, hmore⟩ := ih (s.step a)
    exact ⟨new ++ more, by rw [← List.append_assoc, ← hnew]; exact hmore⟩

theorem appliedIn_run {c : Change} (h : c ∈ appliedIn s.trace) (actions : List Action) :
    c ∈ appliedIn (s.run actions).trace := by
  obtain ⟨new, hnew⟩ := s.trace_run actions
  rw [hnew, appliedIn_append]
  exact List.mem_append_left _ h

/-- A call of the batch that is being applied can return in any way. -/
theorem step_served (h : s.Kept) {g : Flight} (hg : g ∈ s.flights) {stage : Stage}
    (hstage : g.stage? = some stage) (result : Except Failure Unit) :
    ∃ rest, (s.step (.resume g.id (.served result))).trace =
      s.trace ++ .returned stage.current result :: rest := by
  have hfind : s.flights.find? (·.id = g.id) = some g := find?_of_nodup h.ids hg
  have hasks := h.asks g hg
  rw [step, hfind]
  obtain ⟨id, ticket, request, waiting⟩ := g
  cases waiting with
  | storing stores round =>
    obtain ⟨rfl, -⟩ := hasks
    cases hstage
    refine ⟨beginning s.intake (s.intake.stored stores round result).state ++
      eventsAfter (s.intake.stored stores round result).turn, (advance_trace ..).trans ?_⟩
    simp [note, without]
  | removing c round =>
    obtain ⟨rfl, -⟩ := hasks
    cases hstage
    refine ⟨beginning s.intake (s.intake.removed c round result).state ++
      eventsAfter (s.intake.removed c round result).turn, (advance_trace ..).trans ?_⟩
    simp [note, without]
  | lookingUp n kind path => cases hstage
  | joining purpose => cases hstage

/-- A session that goes on: it keeps the order, and what is queued is waited for. -/
structure Going (s : Session) : Prop where
  ordered : s.Ordered
  kept : s.Kept
  woken : s.Woken

theorem Going.step (h : s.Going) {a : Action} (ha : a.Unasked) : (s.step a).Going := by
  refine ⟨ordered_step h.ordered ?_, kept_step h.kept a, woken_step h.kept h.woken a⟩
  rintro rfl
  exact ha

theorem Going.run (h : s.Going) {actions : List Action} (hunasked : ∀ a ∈ actions, a.Unasked) :
    (s.run actions).Going := by
  induction actions generalizing s with
  | nil => exact h
  | cons a actions ih =>
    exact ih (h.step (hunasked a List.mem_cons_self)) fun b hb =>
      hunasked b (List.mem_cons_of_mem a hb)

/-- A call of the batch that is being applied returns, and the next one goes out or the batch is
over. -/
theorem Going.return (h : s.Going) {stage : Stage} (hstages : s.stages = [stage]) :
    ∃ a : Action, a.Unasked ∧ (∀ c ∈ stage.current, c ∈ appliedIn (s.step a).trace) ∧
      ((∃ c rest, stage.waiting = c :: rest ∧ (s.step a).stages = [⟨rest, [c], stage.failed⟩] ∧
          (s.step a).intake.queue = s.intake.queue) ∨
        stage.waiting = [] ∧ (s.step a).stages = [] ∧
          (s.step a).intake.queue = (s.intake.retryAll stage.failed).1.queue) := by
  have hmem : stage ∈ s.stages := hstages ▸ List.mem_cons_self
  obtain ⟨g, hg, hstage⟩ := List.mem_filterMap.mp hmem
  have ha : Action.resume g.id (.served (.ok ())) ≠ .begin .destroy := nofun
  obtain ⟨rest, htrace⟩ := step_served h.kept hg hstage (.ok ())
  have hsame {result : Except Failure Unit} {more : List Event}
      (hmore : (s.step (.resume g.id (.served (.ok ())))).trace =
        s.trace ++ .returned stage.current result :: more) :
      failing stage.current result = [] := by
    have heq := (List.cons.inj (List.append_cancel_left (htrace.symm.trans hmore))).1
    cases result with
    | ok _ => rfl
    | error f => cases heq
  refine ⟨.resume g.id (.served (.ok ())), trivial, ?_, ?_⟩
  · intro c hc
    rw [htrace, appliedIn_append]
    exact List.mem_append_right _ (List.mem_append_left _ hc)
  · cases (progress_step h.ordered ha).moves with
    | nothing arrivals harrivals _ _ _ hnew =>
      rw [List.append_cancel_left (hnew.symm.trans htrace)] at harrivals
      obtain ⟨n, kind, path, he⟩ := harrivals _ List.mem_cons_self
      cases he
    | queued c arrivals harrivals _ _ _ _ _ hnew =>
      rw [List.append_assoc] at hnew
      have heq := List.append_cancel_left (hnew.symm.trans htrace)
      cases arrivals with
      | nil => cases (List.cons.inj heq).1
      | cons e arrivals =>
        obtain ⟨n, kind, path, he⟩ := harrivals e List.mem_cons_self
        cases he.symm.trans (List.cons.inj heq).1
    | taken calls more _ _ _ hnone _ _ =>
      rw [hstages] at hnone
      cases hnone
    | returned g' result c more hwaiting hqueue _ hbefore hafter hnew =>
      obtain rfl : stage = g' := (List.cons.inj (hstages.symm.trans hbefore)).1
      rw [hsame hnew, List.append_nil] at hafter
      exact .inl ⟨c, more, hwaiting, hafter, hqueue⟩
    | ended g' result hwaiting hqueue _ hbefore hafter hnew =>
      obtain rfl : stage = g' := (List.cons.inj (hstages.symm.trans hbefore)).1
      rw [hsame hnew, List.append_nil] at hqueue
      exact .inr ⟨hwaiting, hafter, hqueue⟩

/-- The batch that is being applied can be finished, with everything that it has still to hand over
applied and everything in the queue kept. -/
theorem Going.finish (h : s.Going) {stage : Stage} (hstages : s.stages = [stage]) :
    ∃ next : List Action, (∀ a ∈ next, a.Unasked) ∧ (s.run next).stages = [] ∧
      (∀ path c, s.intake.queue.get? path = some c →
        (s.run next).intake.queue.get? path = some c) ∧
      ∀ c ∈ stage.current ++ stage.waiting, c ∈ appliedIn (s.run next).trace := by
  obtain ⟨waiting, current, failed⟩ := stage
  induction waiting generalizing s current with
  | nil =>
    obtain ⟨a, ha, happlied, ⟨c, rest, hwaiting, -⟩ | ⟨-, hover, hqueue⟩⟩ := h.return hstages
    · cases hwaiting
    · refine ⟨[a], by simpa using ha, hover, ?_, ?_⟩
      · intro path c hc
        change (s.step a).intake.queue.get? path = some c
        rw [hqueue]
        exact get?_retryAll hc failed
      · intro c hc
        rw [List.append_nil] at hc
        exact happlied c hc
  | cons c rest ih =>
    obtain ⟨a, ha, happlied, ⟨c', rest', hwaiting, hafter, hqueue⟩ | ⟨hwaiting, -⟩⟩ :=
      h.return hstages
    · obtain ⟨rfl, rfl⟩ := List.cons.inj hwaiting
      obtain ⟨next, hnext, hover, hkept, hall⟩ := ih (h.step ha) [c] hafter
      refine ⟨a :: next, ?_, hover, ?_, ?_⟩
      · intro b hb
        rcases List.mem_cons.mp hb with rfl | hb
        · exact ha
        · exact hnext b hb
      · intro path d hd
        exact hkept path d (by rw [hqueue]; exact hd)
      · intro d hd
        rcases List.mem_append.mp hd with hd | hd
        · exact appliedIn_run (happlied d hd) next
        · refine hall d ?_
          rcases List.mem_cons.mp hd with rfl | hd
          · exact List.mem_append_left _ List.mem_cons_self
          · exact List.mem_append_right _ hd
    · cases hwaiting

/-- A batch can take the queue, with nothing asked of the intake until then. -/
def Takeable (s : Session) : Prop :=
  ∃ next : List Action, (∀ a ∈ next, a.Unasked) ∧ ∃ calls rest,
    (s.run next).stages = [⟨rest, calls, []⟩] ∧ (calls ++ rest).Perm s.intake.queue.values

theorem takeable_of_step {a : Action} (ha : a.Unasked)
    (hqueue : (s.step a).intake.queue = s.intake.queue) (h : (s.step a).Takeable) :
    s.Takeable := by
  obtain ⟨next, hnext, calls, rest, hstages, hall⟩ := h
  refine ⟨a :: next, ?_, calls, rest, hstages, hqueue ▸ hall⟩
  intro b hb
  rcases List.mem_cons.mp hb with rfl | hb
  · exact ha
  · exact hnext b hb

/-- A batch that is due takes the queue if nothing is being applied. -/
theorem takeable_of_due (h : s.Kept) (hnone : s.stages = [])
    (hsome : s.intake.queue.isEmpty = false) (hdue : s.due ≠ []) : s.Takeable := by
  obtain ⟨ticket, ht⟩ := List.exists_mem_of_ne_nil _ hdue
  obtain ⟨calls, rest, htakes⟩ := process_takes s.intake (.timed ticket) (h.idle hnone) hsome
  refine ⟨[.startBatch ticket], ?_, calls, rest, ?_, htakes.all⟩
  · intro a ha
    rw [List.mem_singleton.mp ha]
    trivial
  · change (s.step (.startBatch ticket)).stages = _
    rw [step, if_pos ht, launch, advance_stages]
    change s.stages ++ (stageAfter (s.intake.process (.timed ticket)).turn).toList = _
    rw [hnone, htakes.stage]
    rfl

/-- When the gather timer rings and nothing is being applied, a batch is due. -/
theorem takeable_of_gather (h : s.Kept) (hnone : s.stages = [])
    (hsome : s.intake.queue.isEmpty = false) (hgather : s.gatherTimers ≠ []) : s.Takeable := by
  obtain ⟨ticket, ht⟩ := List.exists_mem_of_ne_nil _ hgather
  have hwinds : Winding s (s.step (.gather ticket)) := winding_timer s (.inr rfl)
  have hdue : (s.step (.gather ticket)).due ≠ [] := by
    rw [step, if_pos ht, Intake.gathered]
    dsimp only
    rw [h.idle hnone, hsome]
    exact List.append_ne_nil_of_right_ne_nil _ (List.cons_ne_nil _ _)
  refine takeable_of_step (a := .gather ticket) trivial hwinds.queue
    (takeable_of_due (kept_step h _) (hwinds.stages.trans hnone) ?_ hdue)
  rw [hwinds.queue, hsome]

/-- When the quiet timer rings, the gather timer is armed. -/
theorem takeable_of_quiet (h : s.Kept) (hwoken : s.Woken) (hnone : s.stages = [])
    (hsome : s.intake.queue.isEmpty = false) (hquiet : s.quietTimers ≠ []) : s.Takeable := by
  obtain ⟨ticket, ht⟩ := List.exists_mem_of_ne_nil _ hquiet
  have hwinds : Winding s (s.step (.quiet ticket)) := winding_timer s (.inl rfl)
  have harmed : (s.step (.quiet ticket)).gatherTimers ≠ [] := by
    rw [(woken_step h hwoken (.quiet ticket)).wound.gather, step, if_pos ht, change_intake]
    exact List.cons_ne_nil _ _
  refine takeable_of_step (a := .quiet ticket) trivial hwinds.queue
    (takeable_of_gather (kept_step h _) (hwinds.stages.trans hnone) ?_ harmed)
  rw [hwinds.queue, hsome]

/-- Whenever something is queued and nothing is being applied, a batch can take the queue. -/
theorem Going.takeable (h : s.Going) (hnone : s.stages = [])
    (hsome : s.intake.queue.isEmpty = false) : s.Takeable := by
  obtain ⟨stage, -, hin⟩ := h.ordered.order
  rcases h.woken.awaited h.kept hin.live hsome with hquiet | hgather | ⟨ticket, hrunning⟩ | hstages
  · exact takeable_of_quiet h.kept h.woken hnone hsome hquiet
  · exact takeable_of_gather h.kept hnone hsome hgather
  · rcases isRunning_iff.mp hrunning with hdue | ⟨g, hg, hticket⟩
    · exact takeable_of_due h.kept hnone hsome (List.ne_nil_of_mem hdue)
    · -- The work of a batch goes on only while the batch is applied.
      have hstage := (h.kept.purposes g hg ticket hticket).2
      obtain ⟨now, hnow⟩ := Option.isSome_iff_exists.mp hstage
      have hmem : now ∈ s.stages := List.mem_filterMap.mpr ⟨g, hg, hnow⟩
      rw [hnone] at hmem
      cases hmem
  · exact absurd hnone hstages

/-- The queue is empty, or nothing has to be asked of the intake for all of it to be applied. -/
theorem Going.applies (h : s.Going) : ∃ next : List Action, (∀ a ∈ next, a.Unasked) ∧
    ∀ c ∈ s.intake.queue.values, c ∈ appliedIn (s.run next).trace := by
  have hidle {s : Session} (h : s.Going) (hnone : s.stages = []) :
      ∃ next : List Action, (∀ a ∈ next, a.Unasked) ∧
        ∀ c ∈ s.intake.queue.values, c ∈ appliedIn (s.run next).trace := by
    cases hsome : s.intake.queue.isEmpty with
    | true =>
      have hnothing : s.intake.queue.values = [] := by
        rw [OrderedMap.values, List.isEmpty_iff.mp hsome, List.map_nil]
      refine ⟨[], fun _ ha => absurd ha List.not_mem_nil, ?_⟩
      intro c hc
      rw [hnothing] at hc
      cases hc
    | false =>
      obtain ⟨first, hfirst, calls, rest, hstages, hall⟩ := h.takeable hnone hsome
      obtain ⟨second, hsecond, -, -, happlied⟩ := (h.run hfirst).finish hstages
      refine ⟨first ++ second, List.forall_mem_append.mpr ⟨hfirst, hsecond⟩, ?_⟩
      intro c hc
      rw [run_append]
      exact happlied c (hall.mem_iff.mpr hc)
  obtain ⟨stage, hstages, -⟩ := h.kept.busy
  cases stage with
  | none => exact hidle h hstages
  | some now =>
    obtain ⟨first, hfirst, hover, hkept, -⟩ := h.finish hstages
    obtain ⟨second, hsecond, happlied⟩ := hidle (h.run hfirst) hover
    refine ⟨first ++ second, List.forall_mem_append.mpr ⟨hfirst, hsecond⟩, ?_⟩
    intro c hc
    obtain ⟨path, hpath⟩ := OrderedMap.mem_values_iff.mp hc
    rw [run_append]
    exact happlied c (OrderedMap.mem_values_iff.mpr ⟨path, hkept path c hpath⟩)

/-- As long as an intake is not ended, whatever is queued is waited for: a timer is armed, or a
batch has been started and is not over, or a batch is being applied. So, unless the intake is being
ended, all that is queued can be applied without anything being asked of it. -/
theorem queued_is_picked_up (root : String) (options : Options) (actions : List Action) :
    let s := (fresh root options).run actions
    (s.intake.destroyed = false → s.intake.queue.isEmpty = false →
      s.quietTimers ≠ [] ∨ s.gatherTimers ≠ [] ∨ (∃ ticket, s.isRunning ticket = true) ∨
        s.stages ≠ []) ∧
      (.begin .destroy ∉ actions → ∃ next : List Action, (∀ a ∈ next, a.Unasked) ∧
        ∀ c ∈ s.intake.queue.values, c ∈ appliedIn (s.run next).trace) := by
  intro s
  have hkept : s.Kept := kept_run (kept_fresh root options) actions
  have hwoken : s.Woken := woken_run (kept_fresh root options) (woken_fresh root options) actions
  refine ⟨hwoken.awaited hkept, ?_⟩
  intro hlive
  have hordered : s.Ordered := ordered_run (ordered_fresh root options) hlive
  exact Going.applies ⟨hordered, hkept, hwoken⟩

/-- Between the ringing of the gather timer and the beginning of the batch no timer is armed and
nothing is being applied. -/
theorem queued_is_picked_up_due :
    let s := (fresh "/data" .default).run
      [.begin (.change "remove" "/data/p"), .quiet 2, .gather 3]
    s.intake.queue.isEmpty = false ∧ s.quietTimers = [] ∧ s.gatherTimers = [] ∧ s.stages = [] ∧
      (∃ ticket, s.isRunning ticket = true) ∧
      ∃ next : List Action, (∀ a ∈ next, a.Unasked) ∧
        ∀ c ∈ s.intake.queue.values, c ∈ appliedIn (s.run next).trace := by
  intro s
  obtain ⟨hawaited, happlied⟩ := queued_is_picked_up "/data" .default
    [.begin (.change "remove" "/data/p"), .quiet 2, .gather 3]
  have hquiet : s.quietTimers = [] := by decide
  have hgather : s.gatherTimers = [] := by decide
  have hstages : s.stages = [] := rfl
  refine ⟨by decide, hquiet, hgather, hstages, ?_, happlied (by simp)⟩
  rcases hawaited (by decide) (by decide) with hne | hne | hrunning | hne
  · exact absurd hquiet hne
  · exact absurd hgather hne
  · exact hrunning
  · exact absurd hstages hne

end Session

end LiveIndex.Intake
