import LiveIndex.Proofs.Intake.Prompt

/-! What a flush waits for. When its turn comes it takes all that is queued, unless a batch is being
applied: then it is over at once, and whoever waited for it knows nothing of that batch. -/

namespace LiveIndex.Intake

namespace Session

variable {s t : Session} {a : Action} {f : Option Flight} {work : Work} {c : Change} {id : Nat}

/-- A change of which a call has returned, or of whose path a newer one was queued. -/
def Settled (s : Session) (c : Change) : Prop :=
  (∃ calls result, .returned calls result ∈ s.trace ∧ c ∈ calls) ∨ s.Overtaken c

/-- No call ends the intake before a flush has its turn, and no batch is being applied then. -/
def Unhindered (id : Nat) : Session → List Action → Prop
  | _, [] => True
  | s, a :: rest => (s.HasTurn id a → s.intake.processing = false) ∧
      (¬s.HasTurn id a → ¬s.Closing a ∧ Unhindered id (s.step a) rest)

/-- A change that is still in the queue or in a batch, or settled. -/
def Pending (s : Session) (c : Change) : Prop :=
  s.intake.queue.get? c.path = some c ∨ (∃ g ∈ s.stages, c ∈ g.waiting ++ g.current) ∨ s.Settled c

theorem Settled.append {events : List Event} (h : s.Settled c)
    (htrace : t.trace = s.trace ++ events) : t.Settled c := by
  obtain ⟨calls, result, hreturned, hc⟩ | ⟨q, hq, hpath, hnewer⟩ := h
  · exact .inl ⟨calls, result, htrace ▸ List.mem_append_left _ hreturned, hc⟩
  · exact .inr ⟨q, htrace ▸ List.mem_append_left _ hq, hpath, hnewer⟩

theorem settled_step (h : s.Settled c) (a : Action) : (s.step a).Settled c := by
  obtain ⟨new, htrace, -⟩ := s.step_trace a
  exact h.append htrace

theorem pending_of_held (h : s.Stocked) (hc : c ∈ s.held) : s.Pending c := by
  rcases mem_held.mp hc with hqueue | ⟨g, hg, hstage⟩
  · obtain ⟨path, hpath⟩ := OrderedMap.mem_values_iff.mp hqueue
    exact .inl (by rw [h.own path c hpath]; exact hpath)
  · rcases List.mem_append.mp hstage with hwaits | hfailed
    · exact .inr (.inl ⟨g, hg, hwaits⟩)
    · obtain ⟨calls, hcalls, hmem⟩ := h.failed g hg c hfailed
      exact .inr (.inr (.inl ⟨calls, .error (.device ""), hcalls, hmem⟩))

/-- A change is taken from the queue only by a batch, and from a batch only when its call returns,
as long as the intake is not ended. -/
theorem pending_moves (h : s.Stocked) (hmoves : Moves s t) (hc : s.Pending c) : t.Pending c := by
  obtain ⟨new, htrace⟩ : ∃ new, t.trace = s.trace ++ new := by
    cases hmoves with
    | nothing arrivals _ _ _ _ htrace => exact ⟨_, htrace⟩
    | queued q arrivals _ _ _ _ _ _ htrace => exact ⟨_, htrace.trans (List.append_assoc ..)⟩
    | taken calls rest _ _ _ _ _ htrace => exact ⟨_, htrace⟩
    | returned g result first rest _ _ _ _ _ htrace => exact ⟨_, htrace⟩
    | ended g result _ _ _ _ _ htrace => exact ⟨_, htrace⟩
  have hsettled (hold : s.Settled c) : t.Pending c := .inr (.inr (hold.append htrace))
  cases hmoves with
  | nothing arrivals _ hqueue _ hstages _ =>
    rw [Pending, hqueue, hstages]
    exact hc.imp_right (Or.imp_right fun hold => hold.append htrace)
  | queued q arrivals _ _ hnewer hqueue _ hstages hnew =>
    rcases hc with hold | hold | hold
    · by_cases hpath : q.path = c.path
      · have hentered := h.entered c (mem_held.mpr (.inl (OrderedMap.mem_values_iff.mpr ⟨_, hold⟩)))
        refine .inr (.inr (.inr ⟨q, ?_, hpath, hnewer c.origin hentered hpath.symm⟩))
        rw [hnew]
        exact List.mem_append_right _ List.mem_cons_self
      · refine .inl ?_
        rw [hqueue, OrderedMap.get?_insert, if_neg hpath]
        exact hold
    · exact .inr (.inl (hstages ▸ hold))
    · exact hsettled hold
  | taken calls rest hall _ _ hnone hafter _ =>
    rcases hc with hold | ⟨g, hg, -⟩ | hold
    · have hvalue := hall.mem_iff.mpr (OrderedMap.mem_values_iff.mpr ⟨_, hold⟩)
      refine .inr (.inl ⟨⟨rest, calls, []⟩, hafter ▸ List.mem_cons_self, ?_⟩)
      exact List.mem_append.mpr (List.mem_append.mp hvalue).symm
    · rw [hnone] at hg
      cases hg
    · exact hsettled hold
  | returned g result first rest hwaiting hqueue _ hbefore hafter hnew =>
    rcases hc with hold | ⟨g', hg', hold⟩ | hold
    · exact .inl (hqueue ▸ hold)
    · rw [hbefore] at hg'
      rw [List.mem_singleton.mp hg', hwaiting] at hold
      rcases List.mem_append.mp hold with hmem | hmem
      · refine .inr (.inl ⟨_, hafter ▸ List.mem_cons_self, ?_⟩)
        exact List.mem_append.mpr ((List.mem_cons.mp hmem).imp_left List.mem_singleton.mpr).symm
      · refine .inr (.inr (.inl ⟨g.current, result, ?_, hmem⟩))
        rw [hnew]
        exact List.mem_append_right _ List.mem_cons_self
    · exact hsettled hold
  | ended g result hwaiting hqueue _ hbefore hafter hnew =>
    rcases hc with hold | ⟨g', hg', hold⟩ | hold
    · exact .inl (hqueue ▸ get?_retryAll hold _)
    · rw [hbefore] at hg'
      rw [List.mem_singleton.mp hg', hwaiting, List.nil_append] at hold
      refine .inr (.inr (.inl ⟨g.current, result, ?_, hold⟩))
      rw [hnew]
      exact List.mem_append_right _ List.mem_cons_self
    · exact hsettled hold

theorem pending_step (hkept : s.Kept) (h : s.Stocked) (hopen : ¬s.Closing a) (hc : s.Pending c) :
    (s.step a).Pending c := by
  obtain ⟨queue, hmoves, hsame | ⟨hclosing, -⟩⟩ := (step_moved hkept a).moves
  · rw [← hsame, withQueue_self] at hmoves
    exact pending_moves h hmoves hc
  · exact absurd hclosing hopen

/-- A change that a flush waits for: it is in the batch of the flush, or settled. -/
def Guarded (s : Session) (id : Nat) (c : Change) : Prop :=
  (∃ g ∈ s.flights, g.id = id ∧ ∃ stage, g.stage? = some stage ∧
    c ∈ stage.waiting ++ stage.current) ∨ s.Settled c

theorem flight_of_stageAfter (id : Nat) (ticket : Option Nat)
    {turn : Turn Request Waiting Unit} {stage : Stage} (h : stageAfter turn = some stage) :
    ∃ g ∈ flightsAfter id ticket turn, g.id = id ∧ g.stage? = some stage := by
  cases turn with
  | done result => cases h
  | ask request waiting => exact ⟨_, List.mem_cons_self, rfl, h⟩

/-- A flush that has its turn while no batch is being applied takes all that is queued. -/
theorem guarded_of_turn (hkept : s.Kept) (h : s.HasTurn id a)
    (hidle : s.intake.processing = false) (hc : s.Pending c) : (s.step a).Guarded id c := by
  rcases hc with hqueue | ⟨g, hg, -⟩ | hsettled
  · have hvalue : c ∈ s.intake.queue.values := OrderedMap.mem_values_iff.mpr ⟨_, hqueue⟩
    have hsome : s.intake.queue.isEmpty = false := by
      refine Bool.eq_false_iff.mpr fun hempty => ?_
      rw [OrderedMap.values, List.isEmpty_iff.mp hempty] at hvalue
      cases hvalue
    obtain ⟨f, work, purpose, -, hid, hstep, -, ⟨hempty, -⟩ | ⟨calls, rest, hall, hafter⟩⟩ :=
      h.works hkept hidle
    · rw [hempty] at hsome
      cases hsome
    · obtain ⟨g, hg, hsame, hstage⟩ := flight_of_stageAfter (s.idOf f) (ticketOf a f) hafter
      refine .inl ⟨g, ?_, hsame.trans hid, _, hstage, ?_⟩
      · rw [hstep, advance_flights]
        exact List.mem_append_right _ hg
      · exact List.mem_append.mpr (List.mem_append.mp (hall.mem_iff.mpr hvalue)).symm
  · rw [hkept.stages_of_idle hidle] at hg
    cases hg
  · exact .inr (settled_step hsettled a)

/-- A call that is in the way of nothing goes on waiting; a batch that goes on does so with the same
number. -/
theorem guarded_step (hkept : s.Kept) (h : s.Guarded id c) (a : Action) :
    (s.step a).Guarded id c := by
  rcases h with ⟨g, hg, rfl, stage, hstage, hc⟩ | hsettled
  · rcases s.winding_or_works a with hwinds | ⟨f, work, hdoes, hstep⟩
    · exact .inl ⟨g, hwinds.flights ▸ hg, rfl, stage, hstage, hc⟩
    · have hflights := advance_flights (s.ready a f) (s.idOf f) (ticketOf a f) work
      have htrace := advance_trace (s.ready a f) (s.idOf f) (ticketOf a f) work
      rw [← hstep, ready_flights] at hflights
      rw [← hstep, ready_trace, List.append_assoc, List.append_assoc] at htrace
      by_cases hgoes : g ∈ f
      · obtain rfl := Option.mem_def.mp hgoes
        -- It is the call of this batch that returns.
        have hidle {P : Prop} (hnone : ∀ g' ∈ some g, g'.stage? = none) : P := by
          have hnone := hnone g rfl
          rw [hstage] at hnone
          cases hnone
        cases hdoes.doing.outcome hkept with
        | rests hnone _ _ => exact hidle hnone
        | queues _ _ hnone _ _ _ _ _ => exact hidle hnone
        | begins _ _ _ hnone _ _ _ => exact hidle hnone
        | goesOn g' now result purpose plain hf hnow hpurpose hnoted hplain hfinishes _ =>
          cases hf
          obtain rfl : stage = now := Option.some.inj (hstage.symm.trans hnow)
          have hreturned (hcurrent : c ∈ stage.current) : (s.step a).Guarded g.id c := by
            refine .inr (.inl ⟨stage.current, result, ?_, hcurrent⟩)
            rw [htrace, hnoted]
            exact List.mem_append_right _ List.mem_cons_self
          rcases hplain with ⟨d, rest, hwaiting, hhands⟩ | ⟨hwaiting, -⟩
          · rw [hwaiting] at hc
            rcases List.mem_append.mp hc with hc | hc
            · obtain ⟨g', hg', hid, hstage'⟩ := flight_of_stageAfter (s.idOf (some g))
                (ticketOf a (some g)) (hfinishes.stage.trans hhands.stage)
              refine .inl ⟨g', hflights ▸ List.mem_append_right _ hg', hid, _, hstage', ?_⟩
              exact List.mem_append.mpr ((List.mem_cons.mp hc).imp_left List.mem_singleton.mpr).symm
            · exact hreturned hc
          · rw [hwaiting, List.nil_append] at hc
            exact hreturned hc
      · refine .inl ⟨g, ?_, rfl, stage, hstage, hc⟩
        rw [hflights]
        exact List.mem_append_left _ (mem_others hdoes.doing hg hgoes)
  · exact .inr (settled_step hsettled a)

theorem guarded_run (hkept : s.Kept) (h : s.Guarded id c) (actions : List Action) :
    (s.run actions).Guarded id c := by
  induction actions generalizing s with
  | nil => exact h
  | cons a actions ih => exact ih (kept_step hkept a) (guarded_step hkept h a)

/-- A flush that nothing is in the way of takes what is pending when its turn comes. -/
theorem settles_run (hkept : s.Kept) (hstocked : s.Stocked) {g : Flight} (hg : g ∈ s.flights)
    {ticket : Nat} (hrequest : g.request = .batch ticket) (hc : s.Pending c)
    {actions : List Action} (hclear : Unhindered g.id s actions) :
    g ∈ (s.run actions).flights ∨ (s.run actions).Guarded g.id c := by
  induction actions generalizing s with
  | nil => exact .inl hg
  | cons a actions ih =>
    obtain ⟨hidle, hrest⟩ := hclear
    by_cases hturn : s.HasTurn g.id a
    · exact .inr (guarded_run (kept_step hkept a)
        (guarded_of_turn hkept hturn (hidle hturn) hc) actions)
    · obtain ⟨hopen, hrest⟩ := hrest hturn
      exact ih (kept_step hkept a) (stocked_step hkept hstocked a)
        (joining_step hkept hg hrequest hturn) (pending_step hkept hstocked hopen hc) hrest

/-- Nothing is in the way of a call that joined a batch alone, as long as no other flushes. -/
theorem unhindered_joining (hkept : s.Kept) (hwoken : s.Woken) (hlone : s.Lone) {g : Flight}
    {ticket : Nat} (h : s.JoinsAlone g ticket) {actions : List Action}
    (hprompt : Prompt s actions) (hquiet : ∀ a ∈ actions, ¬a.Flushing) :
    Unhindered g.id s actions := by
  induction actions generalizing s with
  | nil => trivial
  | cons a actions ih =>
    have hnow := hquiet a List.mem_cons_self
    refine ⟨h.idle hkept hlone, fun hturn => ⟨?_, ?_⟩⟩
    · rintro ⟨f, work, result, hdoes, hpurpose, -⟩
      have hgoes := notMem_of_joining hkept h.mem h.request hturn hdoes
      exact not_flushing_of_purposeOf h hnow hdoes hgoes hpurpose trivial
    · exact ih (kept_step hkept a) (woken_step hkept hwoken a)
        (lone_step hkept hwoken hlone hprompt.1)
        (joinsAlone_step hkept h hnow hturn) hprompt.2
        fun b hb => hquiet b (List.mem_cons_of_mem a hb)

/-- Nothing is in the way of a call that flushes while no other does. -/
theorem unhindered_of_alone (hkept : s.Kept) (hwoken : s.Woken) (hlone : s.Lone) (h : s.Alone)
    {call : Call} {purpose : Purpose} (hcall : call.purpose? = some purpose)
    (hflushing : purpose.Flushing) {after : List Action}
    (hprompt : Prompt s (.begin call :: after)) (hquiet : ∀ a ∈ after, ¬a.Flushing) :
    Unhindered s.nextId s (.begin call :: after) := by
  refine ⟨?_, ?_⟩
  · rintro (⟨-, -, hbatch⟩ | ⟨⟨⟩, -⟩)
    refine hkept.idle (List.eq_nil_iff_forall_not_mem.mpr fun stage hstage => ?_)
    obtain ⟨ticket, -, hsame⟩ := batch_of_stage hkept hlone h hstage
    cases hbatch.symm.trans hsame
  · intro hturn
    have hbatch : ∃ ticket, s.intake.batch = some ticket := by
      refine Option.ne_none_iff_exists'.mp fun hnone => hturn (.inl ⟨?_, rfl, hnone⟩)
      cases call with
      | flush => exact .inl rfl
      | destroy => exact .inr rfl
      | change kind path => cases hcall
      | directoryChange kind path => cases hcall
      | batch ticket =>
        cases hcall
        exact absurd hflushing id
    obtain ⟨ticket, hbatch⟩ := hbatch
    refine ⟨?_, ?_⟩
    · rintro ⟨f, work, result, ⟨hdoing, -, -⟩, -, hdone⟩
      cases hdoing
      rw [begin_joins hcall hflushing hbatch] at hdone
      cases hdone
    · exact unhindered_joining (kept_step hkept _) (woken_step hkept hwoken _)
        (lone_step hkept hwoken hlone hprompt.1)
        (joinsAlone_begin h hcall hflushing hbatch) hprompt.2 hquiet

/-- What a flush settles that has its turn while no batch is being applied. -/
theorem settled_of_unhindered (hkept : s.Kept) (hstocked : s.Stocked) {after : List Action}
    (hclear : Unhindered s.nextId s (.begin .flush :: after))
    (hover : (s.nextId, .ok ()) ∈ (s.run (.begin .flush :: after)).answers) (hc : c ∈ s.held) :
    (s.run (.begin .flush :: after)).Settled c := by
  have hpending := pending_of_held hstocked hc
  have hnext := kept_step hkept (.begin .flush)
  -- A call that has answered waits for nothing.
  have hgone : ∀ g ∈ (s.run (.begin .flush :: after)).flights, g.id ≠ s.nextId :=
    ((kept_run hkept _).answered _ hover).2
  have hguarded (h : (s.run (.begin .flush :: after)).Guarded s.nextId c) :
      (s.run (.begin .flush :: after)).Settled c :=
    h.resolve_left fun ⟨g, hg, hid, _⟩ => hgone g hg hid
  obtain ⟨hidle, hrest⟩ := hclear
  by_cases hturn : s.HasTurn s.nextId (.begin .flush)
  · exact hguarded (guarded_run hnext (guarded_of_turn hkept hturn (hidle hturn) hpending) after)
  · obtain ⟨hopen, hrest⟩ := hrest hturn
    have hbatch : ∃ ticket, s.intake.batch = some ticket :=
      Option.ne_none_iff_exists'.mp fun hnone => hturn (.inl ⟨.inl rfl, rfl, hnone⟩)
    obtain ⟨ticket, hbatch⟩ := hbatch
    have hmem : ⟨s.nextId, none, .batch ticket, .joining .flush⟩ ∈
        (s.step (.begin .flush)).flights := by
      rw [joining_begin rfl (show Purpose.flush.Flushing from trivial) hbatch]
      exact List.mem_append_right _ List.mem_cons_self
    rcases settles_run hnext (stocked_step hkept hstocked _) hmem rfl
      (pending_step hkept hstocked hopen hpending) hrest with hwaits | h
    · exact absurd rfl (hgone _ hwaits)
    · exact hguarded h

/-- When a flush is over that had its turn while no batch was being applied, each change that was
queued or in a batch when it was called is settled. So it is for a flush while which no other call
flushes; another one would have no regard for the batch of this one. -/
theorem flush_settles (root : String) (options : Options) (before after : List Action) :
    let s := (fresh root options).run before
    let t := s.run (.begin .flush :: after)
    (Unhindered s.nextId s (.begin .flush :: after) → (s.nextId, .ok ()) ∈ t.answers →
      ∀ c ∈ s.held, t.Settled c) ∧
      (Prompt (fresh root options) (before ++ .begin .flush :: after) → s.Alone →
        (∀ a ∈ after, ¬a.Flushing) → Unhindered s.nextId s (.begin .flush :: after)) := by
  intro s t
  have hfresh := kept_fresh root options
  have hkept : s.Kept := kept_run hfresh before
  have hstocked : s.Stocked := stocked_run hfresh (stocked_fresh root options) before
  refine ⟨fun hclear hover c hc => settled_of_unhindered hkept hstocked hclear hover hc, ?_⟩
  intro hprompt halone hquiet
  obtain ⟨hbefore, hafter⟩ := prompt_append hprompt
  have hwoken := woken_fresh root options
  exact unhindered_of_alone hkept (woken_run hfresh hwoken before)
    (lone_run hfresh hwoken (lone_fresh root options) hbefore) halone rfl
    (show Purpose.flush.Flushing from trivial) hafter hquiet

/-- A flush waits for the batch that a timer has started, and tries again what fails there. -/
theorem flush_settles_joined :
    let s := (fresh "/data" .default).run
      [.begin (.change "remove" "/data/p"), .quiet 2, .gather 3, .startBatch 4]
    let t := s.run [.begin .flush, .resume 1 (.served (.error (.device "full"))),
      .resume 2 .joined, .resume 2 (.served (.ok ()))]
    s.held = [⟨.remove, "/data/p", none, 0, 1⟩] ∧ (s.nextId, .ok ()) ∈ t.answers ∧
      ∀ c ∈ s.held, t.Settled c := by
  intro s t
  obtain ⟨hsettles, hclear⟩ := flush_settles "/data" .default
    [.begin (.change "remove" "/data/p"), .quiet 2, .gather 3, .startBatch 4]
    [.resume 1 (.served (.error (.device "full"))), .resume 2 .joined, .resume 2 (.served (.ok ()))]
  have hprompt : Prompt (fresh "/data" .default) ([.begin (.change "remove" "/data/p"), .quiet 2,
      .gather 3, .startBatch 4] ++ [.begin .flush, .resume 1 (.served (.error (.device "full"))),
      .resume 2 .joined, .resume 2 (.served (.ok ()))]) :=
    ⟨trivial, trivial, rfl, fun _ hg => absurd hg List.not_mem_nil, trivial, trivial, trivial,
      trivial, trivial⟩
  have halone : s.Alone := by
    intro g hg purpose hpurpose
    obtain rfl : g = ⟨1, some 4, .remove "/data/p", .removing ⟨.remove, "/data/p", none, 0, 1⟩
      ⟨.timed 4, [], []⟩⟩ := List.mem_singleton.mp hg
    cases hpurpose
    exact id
  have hover : (s.nextId, .ok ()) ∈ t.answers := by decide
  exact ⟨rfl, hover, hsettles (hclear hprompt halone (by simp [Action.Flushing])) hover⟩

/-- A flush that is called while another one applies a batch is over at once. -/
theorem flush_overtakes :
    let s := (fresh "/data" .default).run [.begin (.change "remove" "/data/p"), .begin .flush]
    let t := s.run [.begin .flush]
    (s.nextId, .ok ()) ∈ t.answers ∧ ¬∀ c ∈ s.held, t.Settled c := by
  intro s t
  refine ⟨by decide, fun hall => ?_⟩
  have htrace : t.trace = [.arrived 1 .remove "/data/p", .queued ⟨.remove, "/data/p", none, 0, 1⟩,
      .begun, .handed [⟨.remove, "/data/p", none, 0, 1⟩]] := rfl
  rcases hall ⟨.remove, "/data/p", none, 0, 1⟩ List.mem_cons_self with
    ⟨calls, result, hreturned, -⟩ | ⟨q, hq, -, hnewer⟩
  · rw [htrace] at hreturned
    cases result <;> simp [Event.returned] at hreturned
  · have hone : entered t.trace = [⟨.remove, "/data/p", none, 0, 1⟩] := rfl
    have hq := mem_entered.mpr hq
    rw [hone] at hq
    rw [List.mem_singleton.mp hq] at hnewer
    exact Nat.lt_irrefl _ hnewer

end Session

end LiveIndex.Intake
