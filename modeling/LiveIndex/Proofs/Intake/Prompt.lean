import LiveIndex.Proofs.Intake.Held
import LiveIndex.Proofs.Intake.Waking

/-! Schedules of an event loop, which takes up in order what is ready. A batch begins before the
gather timer rings again, and a call that waits for a batch goes on before the next batch begins. So
the intake always knows the one batch that is not over. -/

namespace LiveIndex.Intake

/-- A flush begins, or a call that ends the intake. -/
def Action.Flushing : Action → Prop
  | .begin .flush | .begin .destroy => True
  | _ => False

/-- Whether something is done for a flush or to end the intake. -/
def Purpose.Flushing : Purpose → Prop
  | .timed _ => False
  | .flush | .destroy => True

namespace Session

variable {s t : Session} {a : Action} {f : Option Flight} {work : Work}

/-- Whether nothing that is ready has to come before a step. -/
def Punctual (s : Session) : Action → Prop
  | .gather _ => s.due = []
  | .startBatch _ =>
    ∀ g ∈ s.flights, ∀ ticket, g.request = .batch ticket → s.isRunning ticket = true
  | _ => True

def Prompt : Session → List Action → Prop
  | _, [] => True
  | s, a :: rest => s.Punctual a ∧ Prompt (s.step a) rest

/-- No two batches have been started that are not over, and the intake knows the one. When a batch
is over that a call waits for, none is being applied that a timer has started. -/
structure Lone (s : Session) : Prop where
  batch : ∀ ticket, s.isRunning ticket = true → s.intake.batch = some ticket
  due : s.due = [] ∨ ∃ ticket, s.due = [ticket] ∧ ∀ g ∈ s.flights, g.ticket = none
  joined : ∀ g ∈ s.flights, ∀ ticket, g.request = .batch ticket →
    s.isRunning ticket = true ∨ ∀ g' ∈ s.flights, g'.ticket = none

theorem lone_fresh (root : String) (options : Options) : (fresh root options).Lone :=
  ⟨nofun, .inl rfl, fun _ hg => absurd hg List.not_mem_nil⟩

theorem mem_stages_of_ticket (h : s.Kept) {g : Flight} (hg : g ∈ s.flights) {ticket : Nat}
    (hticket : g.ticket = some ticket) : ∃ stage, g.stage? = some stage ∧ stage ∈ s.stages := by
  obtain ⟨stage, hstage⟩ := Option.isSome_iff_exists.mp (h.purposes g hg ticket hticket).2
  exact ⟨stage, hstage, List.mem_filterMap.mpr ⟨g, hg, hstage⟩⟩

/-- What runs after the work of a step has run before. -/
theorem running_before (h : s.Kept) (hwound : Wound s.intake s) (hdoes : s.Does a f work)
    {ticket : Nat}
    (hrunning : ((s.ready a f).advance (s.idOf f) (ticketOf a f) work).isRunning ticket = true) :
    s.isRunning ticket = true := by
  obtain ⟨-, hdue⟩ := wound_works h hwound hdoes.doing
  have hflights := advance_flights (s.ready a f) (s.idOf f) (ticketOf a f) work
  rw [ready_flights] at hflights
  rcases isRunning_iff.mp hrunning with hmem | ⟨g, hg, hticket⟩
  · rw [hdue] at hmem
    refine isRunning_iff.mpr (.inl ?_)
    cases f with
    | some f => exact hmem
    | none =>
      cases a with
      | startBatch other => exact List.mem_of_mem_erase hmem
      | begin call => exact hmem
      | quiet ticket => exact hmem
      | gather ticket => exact hmem
      | resume id reply => exact hmem
  · rw [hflights] at hg
    rcases List.mem_append.mp hg with hg | hg
    · exact isRunning_iff.mpr (.inr ⟨g, s.others_subset f hg, hticket⟩)
    · rw [(mem_flightsAfter hg).2.1] at hticket
      cases f with
      | some f =>
        obtain ⟨id, hf⟩ := hdoes.doing.found?
        exact isRunning_iff.mpr (.inr ⟨f, List.mem_of_find?_eq_some hf, hticket⟩)
      | none =>
        cases a with
        | startBatch other =>
          cases hticket
          exact isRunning_iff.mpr (.inl (hdoes.due ticket rfl))
        | begin call => cases hticket
        | quiet ticket => cases hticket
        | gather ticket => cases hticket
        | resume id reply => cases hticket

theorem Lone.due_ready (h : s.Lone) (hdoes : s.Does a f work) :
    (s.ready a f).due = [] ∨ ticketOf a f = none ∧
      ∃ ticket, (s.ready a f).due = [ticket] ∧ ∀ g ∈ s.flights, g.ticket = none := by
  rcases h.due with hnone | ⟨ticket, hone, hfree⟩
  · refine .inl ?_
    cases f with
    | some f => exact hnone
    | none =>
      cases a with
      | startBatch other => exact congrArg (List.erase · other) hnone
      | begin call => exact hnone
      | quiet ticket => exact hnone
      | gather ticket => exact hnone
      | resume id reply => exact hnone
  · cases f with
    | some f =>
      obtain ⟨id, hf⟩ := hdoes.doing.found?
      exact .inr ⟨hfree f (List.mem_of_find?_eq_some hf), ticket, hone, hfree⟩
    | none =>
      cases a with
      | startBatch other =>
        -- The only batch that is due begins.
        have hdue := hdoes.due other rfl
        rw [hone] at hdue
        obtain rfl := List.mem_singleton.mp hdue
        refine .inl ?_
        change s.due.erase other = []
        rw [hone, List.erase_cons_head]
      | begin call => exact .inr ⟨rfl, ticket, hone, hfree⟩
      | quiet other => exact .inr ⟨rfl, ticket, hone, hfree⟩
      | gather other => exact .inr ⟨rfl, ticket, hone, hfree⟩
      | resume id reply => exact .inr ⟨rfl, ticket, hone, hfree⟩

/-- When the work of a batch is done, none is being applied that a timer has started. -/
theorem free_of_done (hkept : s.Kept) (h : s.Lone) (hdoes : s.Does a f work) {ticket : Nat}
    (hticket : ticketOf a f = some ticket) {result : Except Failure Unit}
    (hturn : work.turn = .done result) :
    ∀ g ∈ ((s.ready a f).advance (s.idOf f) (ticketOf a f) work).flights, g.ticket = none := by
  intro g hg
  rw [advance_flights, ready_flights, hturn] at hg
  replace hg := (List.mem_append.mp hg).resolve_right List.not_mem_nil
  cases f with
  | none =>
    rcases h.due with hnone | ⟨other, -, hfree⟩
    · cases a with
      | startBatch other =>
        have hdue := hdoes.due other rfl
        rw [hnone] at hdue
        cases hdue
      | begin call => cases hticket
      | quiet ticket => cases hticket
      | gather ticket => cases hticket
      | resume id reply => cases hticket
    · exact hfree g hg
  | some f =>
    -- Another call of a batch would apply a second one.
    by_contra hsome
    obtain ⟨other, hother⟩ := Option.ne_none_iff_exists'.mp hsome
    obtain ⟨id, hf⟩ := hdoes.doing.found?
    obtain ⟨stage, hstage, -⟩ :=
      mem_stages_of_ticket hkept (List.mem_of_find?_eq_some hf) hticket
    obtain ⟨-, hothers, -⟩ := (hkept.without hf).2 stage hstage
    obtain ⟨now, hnow, -⟩ := mem_stages_of_ticket hkept (s.others_subset (some f) hg) hother
    have hmem : now ∈ (s.without f).stages := List.mem_filterMap.mpr ⟨g, hg, hnow⟩
    rw [hothers] at hmem
    cases hmem

/-- A batch whose work is done is over. -/
theorem not_running_of_done (hkept : s.Kept) (hwound : Wound s.intake s) (h : s.Lone)
    (hdoes : s.Does a f work) {ticket : Nat} (hticket : ticketOf a f = some ticket)
    {result : Except Failure Unit} (hturn : work.turn = .done result) :
    ((s.ready a f).advance (s.idOf f) (ticketOf a f) work).isRunning ticket = false := by
  obtain ⟨-, hdue⟩ := wound_works hkept hwound hdoes.doing
  refine Bool.eq_false_iff.mpr fun hrunning => ?_
  rcases isRunning_iff.mp hrunning with hmem | ⟨g, hg, hsame⟩
  · rw [hdue] at hmem
    rcases h.due_ready hdoes with hnone | ⟨hno, -⟩
    · rw [hnone] at hmem
      cases hmem
    · cases hno.symm.trans hticket
  · cases (free_of_done hkept h hdoes hticket hturn g hg).symm.trans hsame

/-- A call comes to wait for a batch only when it begins, and then for the one that the intake knows
of. -/
theorem Doing.batch_of_asks (hdoing : s.Doing a f work) {ticket : Nat} {waiting : Waiting}
    (hturn : work.turn = .ask (.batch ticket) waiting) : s.intake.batch = some ticket := by
  have hremoval (ix : Intake) (round : Round) :
      (ix.nextRemoval round).turn ≠ .ask (.batch ticket) waiting := by
    intro h
    unfold nextRemoval at h
    split at h
    · unfold roundOver at h
      dsimp only at h
      split at h <;> cases (conclude_done ..).symm.trans h
    · cases h
  have hprocess (ix : Intake) (purpose : Purpose) :
      (ix.process purpose).turn ≠ .ask (.batch ticket) waiting := by
    intro h
    unfold process at h
    split at h
    · cases (conclude_done ..).symm.trans h
    · dsimp only at h
      split at h
      · exact hremoval _ _ h
      · cases h
  have hflush {purpose : Purpose}
      (h : (s.intake.beginFlush purpose).turn = .ask (.batch ticket) waiting) :
      s.intake.batch = some ticket := by
    unfold beginFlush at h
    dsimp only at h
    split at h
    · next other hbatch =>
      cases h
      exact hbatch
    · exact absurd h (hprocess _ _)
  have hreceive {kind : WatchKind} {path : String} :
      (s.intake.receive kind path).turn ≠ .ask (.batch ticket) waiting := by
    intro h
    unfold receive at h
    split at h
    · cases h
    · dsimp only at h
      split at h
      · cases (accept_done ..).symm.trans h
      · cases h
  cases hdoing with
  | @begun call hcall =>
    cases call with
    | change kind path =>
      simp only [Intake.begin, beginChange] at hturn
      split at hturn
      · exact absurd hturn hreceive
      · cases hturn
    | directoryChange kind path =>
      simp only [Intake.begin, beginDirectoryChange] at hturn
      split at hturn
      · split at hturn
        · exact absurd hturn hreceive
        · cases hturn
      · cases hturn
    | batch other => exact absurd rfl (hcall other)
    | flush => exact hflush hturn
    | destroy => exact hflush hturn
  | batch other => exact absurd hturn (hprocess _ _)
  | @found _ _ _ n kind path _ result =>
    obtain ⟨answer, hdone⟩ := lookedUp_done s.intake n kind path result
    cases hdone.symm.trans hturn
  | stored _ _ result => cases result <;> exact absurd hturn (hremoval _ _)
  | removed _ _ result => cases result <;> exact absurd hturn (hremoval _ _)
  | joined _ _ => exact absurd hturn (hprocess _ _)

/-- Once the batch is over that a call waits for, no other begins until the call goes on. -/
theorem joined_works (hkept : s.Kept) (hwoken : s.Woken) (h : s.Lone) (hpunctual : s.Punctual a)
    (hdoes : s.Does a f work) :
    let t := (s.ready a f).advance (s.idOf f) (ticketOf a f) work
    ∀ g ∈ t.flights, ∀ ticket, g.request = .batch ticket →
      t.isRunning ticket = true ∨ ∀ g' ∈ t.flights, g'.ticket = none := by
  intro t g hg ticket hrequest
  have hflights : t.flights = _ :=
    advance_flights (s.ready a f) (s.idOf f) (ticketOf a f) work
  rw [ready_flights] at hflights
  have hrunning (hbefore : s.isRunning ticket = true) :
      t.isRunning ticket = true ∨ ∀ g' ∈ t.flights, g'.ticket = none := by
    refine (isRunning_works hkept hwoken.wound hdoes.doing hbefore).imp_right ?_
    rintro ⟨hticket, result, hturn⟩
    exact free_of_done hkept h hdoes hticket hturn
  rcases List.mem_append.mp (hflights ▸ hg) with hold | hnew
  · rcases h.joined g (s.others_subset f hold) ticket hrequest with hbefore | hfree
    · exact hrunning hbefore
    · by_cases hbefore : s.isRunning ticket = true
      · exact hrunning hbefore
      · refine .inr fun g' hg' => ?_
        rcases List.mem_append.mp (hflights ▸ hg') with hg' | hg'
        · exact hfree g' (s.others_subset f hg')
        · rw [(mem_flightsAfter hg').2.1]
          cases f with
          | some f =>
            obtain ⟨id, hf⟩ := hdoes.doing.found?
            exact hfree f (List.mem_of_find?_eq_some hf)
          | none =>
            cases a with
            | startBatch other =>
              exact absurd (hpunctual g (s.others_subset none hold) ticket hrequest) hbefore
            | begin call => rfl
            | quiet other => rfl
            | gather other => rfl
            | resume id reply => rfl
  · have hturn := (mem_flightsAfter hnew).2.2
    rw [hrequest] at hturn
    exact hrunning (hwoken.batch ticket (hdoes.doing.batch_of_asks hturn))

theorem lone_works (hkept : s.Kept) (hwoken : s.Woken) (h : s.Lone) (hpunctual : s.Punctual a)
    (hdoes : s.Does a f work) :
    ((s.ready a f).advance (s.idOf f) (ticketOf a f) work).Lone := by
  have hintake := advance_intake (s.ready a f) (s.idOf f) (ticketOf a f) work
  have hflights := advance_flights (s.ready a f) (s.idOf f) (ticketOf a f) work
  obtain ⟨-, hdue⟩ := wound_works hkept hwoken.wound hdoes.doing
  rw [ready_flights] at hflights
  refine ⟨?_, ?_, joined_works hkept hwoken h hpunctual hdoes⟩
  · intro ticket hrunning
    have hbefore := h.batch ticket (running_before hkept hwoken.wound hdoes hrunning)
    rw [hintake]
    rcases hdoes.doing.acts_or_admits hkept with ⟨purpose, hpurpose, hacts⟩ | ⟨-, hadmits⟩
    · rcases hacts.batch with hsame | ⟨hnone, other, hother, rfl⟩
      · rw [hsame, hbefore]
      · obtain rfl : ticket = other := Option.some.inj (hbefore.symm.trans hother)
        have hticket := ticketOf_timed hkept hdoes.doing hpurpose
        cases hturn : work.turn with
        | ask request waiting =>
          rw [(hacts.waits request waiting hturn).2.2, hbefore]
        | done result =>
          rw [not_running_of_done hkept hwoken.wound h hdoes hticket hturn] at hrunning
          cases hrunning
    · rw [hadmits.batch, hbefore]
  · rw [hdue, hflights]
    rcases h.due_ready hdoes with hnone | ⟨hticket, ticket, hone, hfree⟩
    · exact .inl hnone
    · refine .inr ⟨ticket, hone, ?_⟩
      intro g hg
      rcases List.mem_append.mp hg with hg | hg
      · exact hfree g (s.others_subset f hg)
      · exact (mem_flightsAfter hg).2.1.trans hticket

theorem lone_quiet (h : s.Lone) {ticket : Nat} :
    ({ s with quietTimers := s.quietTimers.erase ticket }.change s.intake.quiet.1
      s.intake.quiet.2).Lone := by
  have hdue : ({ s with quietTimers := s.quietTimers.erase ticket }.change s.intake.quiet.1
      s.intake.quiet.2).due = s.due := by
    unfold Intake.quiet
    cases s.intake.gatherTimer <;> rfl
  refine ⟨?_, ?_, ?_⟩
  · intro other hrunning
    rw [isRunning_iff, hdue, change_flights] at hrunning
    rw [change_intake]
    exact h.batch other (isRunning_iff.mpr hrunning)
  · rw [hdue, change_flights]
    exact h.due
  · intro g hg other hrequest
    rw [isRunning_iff, hdue, change_flights]
    rw [change_flights] at hg
    exact (h.joined g hg other hrequest).imp_left isRunning_iff.mp

theorem lone_gather (hkept : s.Kept) (h : s.Lone) {ticket : Nat} (hdue : s.due = []) :
    ({ s with gatherTimers := s.gatherTimers.erase ticket }.change s.intake.gathered.1
      s.intake.gathered.2).Lone := by
  unfold Intake.gathered
  dsimp only
  split
  · exact ⟨h.batch, h.due, h.joined⟩
  · next hidle =>
    rw [Bool.or_eq_true, not_or, Bool.not_eq_true] at hidle
    have hfree : ∀ g ∈ s.flights, g.ticket = none := by
      intro g hg
      by_contra hsome
      obtain ⟨other, hother⟩ := Option.ne_none_iff_exists'.mp hsome
      obtain ⟨stage, -, hstage⟩ := mem_stages_of_ticket hkept hg hother
      rw [hkept.stages_of_idle hidle.1] at hstage
      cases hstage
    refine ⟨?_, .inr ⟨s.intake.ticket, ?_, hfree⟩, fun _ _ _ _ => .inr hfree⟩
    · intro other hrunning
      rcases isRunning_iff.mp hrunning with hmem | ⟨g, hg, hother⟩
      · change other ∈ s.due ++ [s.intake.ticket] at hmem
        rw [hdue, List.nil_append] at hmem
        rw [List.mem_singleton.mp hmem]
        rfl
      · cases (hfree g hg).symm.trans hother
    · change s.due ++ [s.intake.ticket] = _
      rw [hdue, List.nil_append]

theorem lone_step (hkept : s.Kept) (hwoken : s.Woken) (h : s.Lone) (hpunctual : s.Punctual a) :
    (s.step a).Lone := by
  obtain ⟨t, ht⟩ : ∃ t, t = s.step a := ⟨_, rfl⟩
  have hstepped := s.step_stepped a
  rw [← ht] at hstepped ⊢
  cases hstepped with
  | same => exact h
  | quiet ha hmem => exact lone_quiet h
  | gather ha hmem =>
    subst ha
    exact lone_gather hkept h hpunctual
  | works hdoes => exact lone_works hkept hwoken h hpunctual hdoes

/-- The step in which a call that flushes has its turn: it begins where no batch has been started, or
the batch that it waits for is over. -/
def HasTurn (s : Session) (id : Nat) (a : Action) : Prop :=
  (a = .begin .flush ∨ a = .begin .destroy) ∧ s.nextId = id ∧ s.intake.batch = none ∨
    a = .resume id .joined ∧ ∃ g ∈ s.flights, g.id = id ∧
      ∃ ticket, g.request = .batch ticket ∧ s.isRunning ticket = false

/-- A call that has its turn while no batch is being applied takes all that is queued as one, and is
over if there is nothing. -/
theorem HasTurn.works {id : Nat} (hkept : s.Kept) (h : s.HasTurn id a)
    (hidle : s.intake.processing = false) : ∃ f work purpose, s.Does a f work ∧ s.idOf f = id ∧
      s.step a = (s.ready a f).advance (s.idOf f) (ticketOf a f) work ∧
      purposeOf a f = some purpose ∧
      (s.intake.queue.isEmpty = true ∧ work.turn = .done (.ok ()) ∨
        ∃ calls rest, (calls ++ rest).Perm s.intake.queue.values ∧
          stageAfter work.turn = some ⟨rest, calls, []⟩) := by
  have hprocess (ix : Intake) (purpose : Purpose) (hqueue : ix.queue = s.intake.queue)
      (hprocessing : ix.processing = s.intake.processing) {turn : Turn Request Waiting Unit}
      (hturn : turn = (ix.process purpose).turn) :
      s.intake.queue.isEmpty = true ∧ turn = .done (.ok ()) ∨
        ∃ calls rest, (calls ++ rest).Perm s.intake.queue.values ∧
          stageAfter turn = some ⟨rest, calls, []⟩ := by
    rw [← hqueue, hturn]
    cases hempty : ix.queue.isEmpty with
    | true =>
      rw [process, hempty, Bool.or_true, if_pos rfl]
      exact .inl ⟨rfl, conclude_done ..⟩
    | false =>
      obtain ⟨calls, rest, htakes⟩ := process_takes ix purpose (hprocessing.trans hidle) hempty
      exact .inr ⟨calls, rest, htakes.all, htakes.stage⟩
  have hbegin (hbatch : s.intake.batch = none) (purpose : Purpose) :
      (s.intake.beginFlush purpose).turn =
        (s.intake.disarmTimers.1.disarmTimers.1.process purpose).turn := by
    unfold beginFlush
    dsimp only
    split
    · next ticket hsome => cases hbatch.symm.trans hsome
    · rfl
  rcases h with ⟨rfl | rfl, rfl, hbatch⟩ | ⟨rfl, g, hg, rfl, ticket, hrequest, hover⟩
  · exact ⟨none, _, .flush, ⟨.begun (by rintro _ ⟨⟩), by rintro _ ⟨⟩, by rintro _ ⟨⟩⟩, rfl, rfl, rfl,
      hprocess s.intake.disarmTimers.1.disarmTimers.1 .flush rfl rfl (hbegin hbatch .flush)⟩
  · exact ⟨none, _, .destroy, ⟨.begun (by rintro _ ⟨⟩), by rintro _ ⟨⟩, by rintro _ ⟨⟩⟩, rfl, rfl,
      rfl, hprocess s.intake.disarmTimers.1.disarmTimers.1 .destroy rfl rfl (hbegin hbatch .destroy)⟩
  · have hfind := find?_of_nodup hkept.ids hg
    have hasks := hkept.asks g hg
    have hfree : ∀ g' ∈ some g, ∀ other, g'.request = .batch other →
        s.isRunning other = false := by
      rintro g' ⟨⟩ other hother
      rwa [← Request.batch.inj (hrequest.symm.trans hother)]
    obtain ⟨id, tk, request, waiting⟩ := g
    obtain rfl : request = .batch ticket := hrequest
    cases waiting with
    | joining purpose =>
      refine ⟨some ⟨id, tk, .batch ticket, .joining purpose⟩, _, purpose,
        ⟨.joined hfind rfl, by rintro _ ⟨⟩, hfree⟩, rfl, ?_, rfl,
        hprocess s.intake.disarmTimers.1 purpose rfl rfl rfl⟩
      have hnoted : s.noted (.resume id .joined) = [] := rfl
      rw [ready, hnoted, List.append_nil, step, hfind]
      exact if_neg (Bool.eq_false_iff.mp hover)
    | lookingUp n kind path => cases hasks.2
    | storing stores round => cases hasks.1
    | removing c round => cases hasks.1

/-- A call that waits for a batch goes on only when it has its turn. -/
theorem notMem_of_joining (hkept : s.Kept) {g : Flight} (hg : g ∈ s.flights) {ticket : Nat}
    (hrequest : g.request = .batch ticket) (hturn : ¬s.HasTurn g.id a) (hdoes : s.Does a f work) :
    g ∉ f := by
  intro hgoes
  obtain rfl := Option.mem_def.mp hgoes
  have hover := hdoes.freed g rfl ticket hrequest
  have hasks := hkept.asks g hg
  refine hturn ?_
  cases hdoes.doing with
  | found _ hwaiting _ =>
    rw [hwaiting, hrequest] at hasks
    cases hasks.2
  | stored _ hwaiting _ =>
    rw [hwaiting, hrequest] at hasks
    cases hasks.1
  | removed _ hwaiting _ =>
    rw [hwaiting, hrequest] at hasks
    cases hasks.1
  | @joined id _ hf _ _ =>
    have hid : g.id = id := by simpa using List.find?_some hf
    exact .inr ⟨by rw [hid], g, hg, rfl, ticket, hrequest, hover⟩

theorem joining_step (hkept : s.Kept) {g : Flight} (hg : g ∈ s.flights) {ticket : Nat}
    (hrequest : g.request = .batch ticket) (hturn : ¬s.HasTurn g.id a) :
    g ∈ (s.step a).flights := by
  rcases s.winding_or_works a with hwinds | ⟨f, work, hdoes, hstep⟩
  · exact hwinds.flights ▸ hg
  · rw [hstep, advance_flights, ready_flights]
    exact List.mem_append_left _
      (mem_others hdoes.doing hg (notMem_of_joining hkept hg hrequest hturn hdoes))

/-- Neither is a flush under way nor is the intake being ended. -/
def Alone (s : Session) : Prop :=
  ∀ g ∈ s.flights, ∀ purpose, g.purpose? = some purpose → ¬purpose.Flushing

/-- A call waits for a batch, with no other call under way that flushes. -/
structure JoinsAlone (s : Session) (g : Flight) (ticket : Nat) : Prop where
  mem : g ∈ s.flights
  request : g.request = .batch ticket
  others : ∀ g' ∈ s.flights, g' ≠ g → ∀ purpose, g'.purpose? = some purpose → ¬purpose.Flushing

theorem purpose_of_stage {g : Flight} {stage : Stage} (hstage : g.stage? = some stage) :
    ∃ purpose, g.purpose? = some purpose := by
  obtain ⟨id, tk, request, waiting⟩ := g
  cases waiting with
  | lookingUp n kind path => cases hstage
  | joining purpose => cases hstage
  | storing stores round => exact ⟨round.purpose, rfl⟩
  | removing c round => exact ⟨round.purpose, rfl⟩

/-- What is applied is applied for a batch that runs, if no other call does it. -/
theorem running_of_stage (hkept : s.Kept) {g : Flight} (hg : g ∈ s.flights) {stage : Stage}
    (hstage : g.stage? = some stage)
    (hflushing : ∀ purpose, g.purpose? = some purpose → ¬purpose.Flushing) :
    ∃ ticket, g.ticket = some ticket ∧ s.isRunning ticket = true := by
  obtain ⟨purpose, hpurpose⟩ := purpose_of_stage hstage
  have hno := hflushing purpose hpurpose
  cases purpose with
  | timed ticket =>
    have hticket := hkept.timed g hg ticket hpurpose
    exact ⟨ticket, hticket, isRunning_iff.mpr (.inr ⟨g, hg, hticket⟩)⟩
  | flush => exact absurd trivial hno
  | destroy => exact absurd trivial hno

theorem not_flushing_of_purposeOf {g : Flight} {ticket : Nat} (h : s.JoinsAlone g ticket)
    (hquiet : ¬a.Flushing) (hdoes : s.Does a f work) (hgoes : g ∉ f) {purpose : Purpose}
    (hpurpose : purposeOf a f = some purpose) : ¬purpose.Flushing := by
  cases f with
  | some f =>
    obtain ⟨id, hf⟩ := hdoes.doing.found?
    exact h.others f (List.mem_of_find?_eq_some hf) (fun hsame => hgoes (hsame ▸ rfl)) purpose
      hpurpose
  | none =>
    cases hdoes.doing with
    | @begun call hcall =>
      cases call with
      | change kind path => cases hpurpose
      | directoryChange kind path => cases hpurpose
      | batch ticket => exact absurd rfl (hcall ticket)
      | flush => exact absurd trivial hquiet
      | destroy => exact absurd trivial hquiet
    | batch ticket =>
      cases hpurpose
      exact id

theorem joinsAlone_step (hkept : s.Kept) {g : Flight} {ticket : Nat} (h : s.JoinsAlone g ticket)
    (hquiet : ¬a.Flushing) (hturn : ¬s.HasTurn g.id a) : (s.step a).JoinsAlone g ticket := by
  have hmem := joining_step hkept h.mem h.request hturn
  rcases s.winding_or_works a with hwinds | ⟨f, work, hdoes, hstep⟩
  · exact ⟨hmem, h.request, hwinds.flights ▸ h.others⟩
  · rw [hstep] at hmem ⊢
    have hgoes := notMem_of_joining hkept h.mem h.request hturn hdoes
    refine ⟨hmem, h.request, ?_⟩
    intro g' hg' hne purpose hpurpose
    rw [advance_flights, ready_flights] at hg'
    rcases List.mem_append.mp hg' with hg' | hg'
    · exact h.others g' (s.others_subset _ hg') hne purpose hpurpose
    · obtain ⟨-, -, hturn'⟩ := mem_flightsAfter hg'
      rcases hdoes.doing.acts_or_admits hkept with ⟨p, hp, hacts⟩ | ⟨-, hadmits⟩
      · rw [Flight.purpose?, (hacts.waits _ _ hturn').1] at hpurpose
        cases hpurpose
        exact not_flushing_of_purposeOf h hquiet hdoes hgoes hp
      · rw [Flight.purpose?, hadmits.waits _ _ hturn'] at hpurpose
        cases hpurpose

/-- Where none is being applied on behalf of a flush, a batch that is applied is the one that the
intake knows of. -/
theorem batch_of_stage (hkept : s.Kept) (hlone : s.Lone) (h : s.Alone) {stage : Stage}
    (hstage : stage ∈ s.stages) :
    ∃ ticket, s.isRunning ticket = true ∧ s.intake.batch = some ticket := by
  obtain ⟨g, hg, hstage⟩ := List.mem_filterMap.mp hstage
  obtain ⟨ticket, -, hrunning⟩ := running_of_stage hkept hg hstage (h g hg)
  exact ⟨ticket, hrunning, hlone.batch ticket hrunning⟩

/-- A call that flushes waits for the batch that the intake knows of. -/
theorem begin_joins {ix : Intake} {call : Call} {purpose : Purpose}
    (hcall : call.purpose? = some purpose) (hflushing : purpose.Flushing) {ticket : Nat}
    (hbatch : ix.batch = some ticket) :
    (ix.begin call).turn = .ask (.batch ticket) (.joining purpose) := by
  have hjoin : (ix.beginFlush purpose).turn = .ask (.batch ticket) (.joining purpose) := by
    unfold beginFlush
    dsimp only
    split
    · next other hother =>
      cases hbatch.symm.trans hother
      rfl
    · next hnone => cases hbatch.symm.trans hnone
  cases call with
  | flush =>
    cases hcall
    exact hjoin
  | destroy =>
    cases hcall
    exact hjoin
  | batch other =>
    cases hcall
    exact absurd hflushing id
  | change kind path => cases hcall
  | directoryChange kind path => cases hcall

theorem begin_works {call : Call} (hcall : ∀ ticket, call ≠ .batch ticket) :
    s.step (.begin call) =
      (s.ready (.begin call) none).advance s.nextId none (s.intake.begin call) := by
  cases call with
  | batch ticket => exact absurd rfl (hcall ticket)
  | change kind path => rfl
  | directoryChange kind path => rfl
  | flush => rfl
  | destroy => rfl

theorem joining_begin {call : Call} {purpose : Purpose} (hcall : call.purpose? = some purpose)
    (hflushing : purpose.Flushing) {ticket : Nat} (hbatch : s.intake.batch = some ticket) :
    (s.step (.begin call)).flights =
      s.flights ++ [⟨s.nextId, none, .batch ticket, .joining purpose⟩] := by
  have hnobatch : ∀ other, call ≠ .batch other := by
    rintro other rfl
    cases hcall
    exact hflushing
  rw [begin_works hnobatch, advance_flights, begin_joins hcall hflushing hbatch]
  rfl

/-- A call that flushes while no other does joins the batch that the intake knows of. -/
theorem joinsAlone_begin (h : s.Alone) {call : Call} {purpose : Purpose}
    (hcall : call.purpose? = some purpose) (hflushing : purpose.Flushing) {ticket : Nat}
    (hbatch : s.intake.batch = some ticket) :
    (s.step (.begin call)).JoinsAlone ⟨s.nextId, none, .batch ticket, .joining purpose⟩ ticket := by
  have hflights := joining_begin hcall hflushing hbatch
  refine ⟨?_, rfl, ?_⟩
  · rw [hflights]
    exact List.mem_append_right _ List.mem_cons_self
  · intro g hg hne
    rw [hflights] at hg
    rcases List.mem_append.mp hg with hg | hg
    · exact h g hg
    · exact absurd (List.mem_singleton.mp hg) hne

theorem stage_of_joining (hkept : s.Kept) {g : Flight} (hg : g ∈ s.flights) {ticket : Nat}
    (hrequest : g.request = .batch ticket) : g.stage? = none := by
  have hasks := hkept.asks g hg
  rw [hrequest] at hasks
  obtain ⟨id, tk, request, waiting⟩ := g
  cases waiting with
  | joining purpose => rfl
  | lookingUp n kind path => rfl
  | storing stores round => cases hasks.1
  | removing c round => cases hasks.1

/-- No batch is being applied when a call that joined one alone has its turn. -/
theorem JoinsAlone.idle (hkept : s.Kept) (hlone : s.Lone) {g : Flight} {ticket : Nat}
    (h : s.JoinsAlone g ticket) (hturn : s.HasTurn g.id a) : s.intake.processing = false := by
  rcases hturn with ⟨-, hid, -⟩ | ⟨-, g', hg', hid, ticket', hrequest, hover⟩
  · exact absurd (hkept.known g h.mem) (by rw [hid]; exact Nat.lt_irrefl _)
  · have hfound := find?_of_nodup hkept.ids hg'
    rw [hid, find?_of_nodup hkept.ids h.mem] at hfound
    obtain rfl := Option.some.inj hfound
    have hfree := (hlone.joined g hg' ticket' hrequest).resolve_left
      (by rw [hover]; exact Bool.false_ne_true)
    refine hkept.idle (List.eq_nil_iff_forall_not_mem.mpr fun stage hmem => ?_)
    obtain ⟨g', hg', hstage⟩ := List.mem_filterMap.mp hmem
    have hne : g' ≠ g := by
      rintro rfl
      cases (stage_of_joining hkept hg' hrequest).symm.trans hstage
    obtain ⟨other, hother, -⟩ := running_of_stage hkept hg' hstage (h.others g' hg' hne)
    cases (hfree g' hg').symm.trans hother

theorem prompt_append {first second : List Action} (h : Prompt s (first ++ second)) :
    Prompt s first ∧ Prompt (s.run first) second := by
  induction first generalizing s with
  | nil => exact ⟨trivial, h⟩
  | cons a first ih =>
    obtain ⟨hnow, hlater⟩ := ih h.2
    exact ⟨⟨h.1, hnow⟩, hlater⟩

theorem lone_run (hkept : s.Kept) (hwoken : s.Woken) (h : s.Lone) {actions : List Action}
    (hprompt : Prompt s actions) : (s.run actions).Lone := by
  induction actions generalizing s with
  | nil => exact h
  | cons a actions ih =>
    exact ih (kept_step hkept a) (woken_step hkept hwoken a)
      (lone_step hkept hwoken h hprompt.1) hprompt.2

end Session

end LiveIndex.Intake
