import LiveIndex.Proofs.Intake.Order

/-! Every stretch of work of an intake keeps the order, and so does every run. -/

namespace LiveIndex.Intake

/-- The batch that a call applies which waits. -/
def Waiting.stage? : Waiting → Option Stage
  | .storing stores round => some ⟨round.removals, stores, round.failed⟩
  | .removing c round => some ⟨round.removals, [c], round.failed⟩
  | _ => none

def Flight.stage? (f : Flight) : Option Stage :=
  f.waiting.stage?

/-- What a lookup is for has arrived, and nothing is applied in order to end the intake. -/
def Waiting.Sound (T : List Event) : Waiting → Prop
  | .lookingUp n kind path => ∃ i : Nat, T[i]? = some (.arrived n kind path)
  | .storing _ round | .removing _ round => round.purpose ≠ .destroy
  | .joining purpose => purpose ≠ .destroy

theorem Waiting.Sound.append {T : List Event} {w : Waiting} (h : w.Sound T) (T' : List Event) :
    w.Sound (T ++ T') := by
  cases w with
  | lookingUp n kind path =>
    obtain ⟨i, hi⟩ := h
    exact ⟨i, by rw [List.getElem?_append_left (lt_of_getElem? hi), hi]⟩
  | storing stores round => exact h
  | removing c round => exact h
  | joining purpose => exact h

/-- Work that keeps the order, next to a batch of another call if there is one. -/
def Keeps (others : Option Stage) (T : List Event) (work : Work) : Prop :=
  match work.turn with
  | .done _ => InOrder work.state others T
  | .ask _ waiting => waiting.Sound (T ++ waiting.events) ∧ ∃ stage : Option Stage,
      others.toList ++ waiting.stage?.toList = stage.toList ∧
        InOrder work.state stage (T ++ waiting.events)

section Works

variable {ix : Intake} {others : Option Stage} {T : List Event}

theorem beginning_of_same {ix' : Intake} {T' : List Event} (h : InOrder ix others T)
    (h' : InOrder ix' others T') : Session.beginning ix ix' = [] := by
  rw [Session.beginning, h.busy, h'.busy, Bool.and_not_self]
  rfl

theorem beginning_of_busy {g : Stage} (h : InOrder ix (some g) T) (after : Intake) :
    Session.beginning ix after = [] := by
  rw [Session.beginning, h.busy, Option.isSome_some, Bool.not_true, Bool.and_false]
  rfl

theorem keeps_done {T' : List Event} (h : InOrder ix others T) {work : Work}
    {r : Except Failure Unit} (hdone : work.turn = .done r)
    (hstate : InOrder work.state others T') :
    Keeps others (T' ++ Session.beginning ix work.state) work := by
  rw [beginning_of_same h hstate, List.append_nil, Keeps, hdone]
  exact hstate

theorem keeps_ask {state : Intake} {effects : List Effect} {request : Request} {waiting : Waiting}
    (hsound : waiting.Sound T) (hevents : waiting.events = []) (hstage : waiting.stage? = none)
    (h : InOrder state others T) : Keeps others T (.ask state effects request waiting) := by
  have htrace : T ++ waiting.events = T := by rw [hevents, List.append_nil]
  refine ⟨?_, others, ?_, ?_⟩
  · rw [htrace]
    exact hsound
  · rw [hstage]
    exact List.append_nil _
  · rw [htrace]
    exact h

theorem InOrder.not_destroyed (h : InOrder ix others T) : ¬ix.destroyed = true := by
  rw [h.live]
  exact Bool.false_ne_true

theorem InOrder.disarmTimers (h : InOrder ix others T) : InOrder ix.disarmTimers.1 others T :=
  h.rest (Nat.le_refl _) (fun _ _ hn => hn) rfl rfl rfl

theorem InOrder.awaitQuiet (h : InOrder ix others T) : InOrder ix.awaitQuiet.1 others T :=
  h.rest (Nat.le_succ _) (fun _ _ hn => hn) rfl rfl rfl

theorem InOrder.quiet (h : InOrder ix others T) : InOrder ix.quiet.1 others T :=
  h.rest (Nat.le_succ _) (fun _ _ hn => hn) rfl rfl rfl

theorem InOrder.gathered (h : InOrder ix others T) : InOrder ix.gathered.1 others T := by
  unfold Intake.gathered
  dsimp only
  split
  · exact h.rest (Nat.le_refl _) (fun _ _ hn => hn) rfl rfl rfl
  · exact h.rest (Nat.le_succ _) (fun _ _ hn => hn) rfl rfl rfl

theorem conclude_done (ix : Intake) (purpose : Purpose) :
    (ix.conclude purpose).turn = .done (.ok ()) := by
  cases purpose with
  | timed ticket => rfl
  | flush => rfl
  | destroy => rfl

theorem InOrder.conclude (h : InOrder ix others T) {purpose : Purpose} (hp : purpose ≠ .destroy) :
    InOrder (ix.conclude purpose).state others T := by
  cases purpose with
  | timed ticket => exact h.rest (Nat.le_refl _) (fun _ _ hn => hn) rfl rfl rfl
  | flush => exact h
  | destroy => exact absurd rfl hp

theorem keeps_conclude (h : InOrder ix others T) {purpose : Purpose} (hp : purpose ≠ .destroy) :
    Keeps others T (ix.conclude purpose) := by
  rw [Keeps, conclude_done]
  exact h.conclude hp

/-- At the end of a batch what failed is put back. -/
theorem keeps_roundOver {round : Round} (h : InOrder ix (some ⟨[], [], round.failed⟩) T)
    (hp : round.purpose ≠ .destroy) : Keeps none T (ix.roundOver round) := by
  have hclosed := h.retryAll.close
  unfold roundOver
  dsimp only
  split
  · exact keeps_conclude hclosed hp
  · exact keeps_conclude hclosed.awaitQuiet hp

theorem keeps_nextRemoval (round : Round)
    (h : InOrder ix (some ⟨round.removals, [], round.failed⟩) T) (hp : round.purpose ≠ .destroy) :
    Keeps none T (ix.nextRemoval round) := by
  unfold nextRemoval
  split
  · next hnone =>
    rw [hnone] at h
    exact keeps_roundOver h hp
  · next c rest hsome =>
    rw [hsome] at h
    exact ⟨hp, _, rfl, h.hand rfl [c] rest (List.Perm.refl _)⟩

/-- A batch that begins takes the whole queue and hands over the first of it. -/
theorem keeps_process (h : InOrder ix others T) {purpose : Purpose} (hp : purpose ≠ .destroy) :
    Keeps others (T ++ Session.beginning ix (ix.process purpose).state) (ix.process purpose) := by
  unfold process
  split
  · exact keeps_done h (conclude_done ix purpose) (h.conclude hp)
  · next hidle =>
    simp only [Bool.or_eq_true, not_or, Bool.not_eq_true] at hidle
    obtain ⟨hfree, hsome⟩ := hidle
    -- No batch is being applied, or this one would not begin.
    have hnone : others = none := by
      have hbusy := h.busy
      rw [hfree] at hbusy
      exact Option.not_isSome_iff_eq_none.mp (by rw [← hbusy]; exact Bool.false_ne_true)
    subst hnone
    have hbegun : Session.beginning ix { ix with processing := true, queue := .empty } =
        [.begun] := by
      rw [Session.beginning, hfree]
      rfl
    have hperm : ((ix.queue.values.filter Change.isRemoval) ++
        ix.queue.values.filter fun c => !c.isRemoval).Perm ix.queue.values :=
      List.filter_append_perm ..
    have htaken := h.take hperm
    dsimp only
    split
    · next hstores =>
      rw [List.isEmpty_iff.mp hstores, List.append_nil] at htaken hperm
      -- All that was queued are removals, so there is one to begin with.
      cases hremovals : ix.queue.values.filter Change.isRemoval with
      | nil =>
        rw [hremovals] at hperm
        have hempty : ix.queue.isEmpty = true :=
          List.isEmpty_iff.mpr (List.map_eq_nil_iff.mp hperm.symm.eq_nil)
        rw [hsome] at hempty
        cases hempty
      | cons c rest =>
        have hkeeps := keeps_nextRemoval ⟨purpose, c :: rest, []⟩ (hremovals ▸ htaken) hp
        rw [← hbegun] at hkeeps
        exact hkeeps
    · -- What is to be stored goes first and all at once, the removals follow one by one.
      have hhanded := htaken.hand rfl _ _ List.perm_append_comm
      rw [← hbegun] at hhanded
      exact ⟨hp, _, rfl, hhanded⟩

theorem keeps_flushNow (h : InOrder ix others T) {purpose : Purpose} (hp : purpose ≠ .destroy) :
    Keeps others (T ++ Session.beginning ix (ix.flushNow purpose).state) (ix.flushNow purpose) :=
  keeps_process h.disarmTimers hp

theorem keeps_beginFlush (h : InOrder ix others T) {purpose : Purpose} (hp : purpose ≠ .destroy) :
    Keeps others (T ++ Session.beginning ix (ix.beginFlush purpose).state)
      (ix.beginFlush purpose) := by
  unfold beginFlush
  dsimp only
  split
  · have hnone : Session.beginning ix ix.disarmTimers.1 = [] :=
      beginning_of_same h h.disarmTimers
    change Keeps others (T ++ Session.beginning ix ix.disarmTimers.1) _
    rw [hnone, List.append_nil]
    exact keeps_ask hp rfl rfl h.disarmTimers
  · exact keeps_flushNow h.disarmTimers hp

theorem keeps_stored {stores : List Change} {round : Round}
    (h : InOrder ix (some ⟨round.removals, stores, round.failed⟩) T) (hp : round.purpose ≠ .destroy)
    (result : Except Failure Unit) :
    Keeps none (T ++ [.returned stores result]) (ix.stored stores round result) := by
  cases result with
  | ok _ => exact keeps_nextRemoval round h.applied hp
  | error f =>
    exact keeps_nextRemoval { round with failed := round.failed ++ stores } h.fail hp

theorem keeps_removed {c : Change} {round : Round}
    (h : InOrder ix (some ⟨round.removals, [c], round.failed⟩) T) (hp : round.purpose ≠ .destroy)
    (result : Except Failure Unit) :
    Keeps none (T ++ [.returned [c] result]) (ix.removed c round result) := by
  cases result with
  | ok _ => exact keeps_nextRemoval round h.applied hp
  | error f =>
    exact keeps_nextRemoval { round with failed := round.failed ++ [c] } h.fail hp

theorem InOrder.accept (h : InOrder ix others T) {c : Change}
    (hlatest : ix.latest.get? c.path = some c.arrival)
    (harrived : ∃ i : Nat, T[i]? = some (.arrived c.arrival c.kind c.path)) :
    InOrder (ix.accept c).state others (T ++ [.queued c]) := by
  have haccept : ix.accept c =
      .done ({ ix with latest := ix.latest.erase c.path }.enqueue c).1
        ({ ix with latest := ix.latest.erase c.path }.enqueue c).2 () := if_pos hlatest
  have henqueue : { ix with latest := ix.latest.erase c.path }.enqueue c =
      { ix with latest := ix.latest.erase c.path, queue := ix.queue.insert c.path c }.awaitQuiet :=
    if_neg h.not_destroyed
  rw [haccept, henqueue]
  exact (h.enqueue hlatest harrived).awaitQuiet

theorem accept_done (ix : Intake) (c : Change) : (ix.accept c).turn = .done (.ok ()) := by
  unfold Intake.accept
  split <;> rfl

/-- A change that arrives is queued if it is a removal, and looked up otherwise. -/
theorem keeps_receive (h : InOrder ix others T) (kind : WatchKind) (path : String) :
    Keeps others (T ++ (.arrived ix.ticket kind path ::
        if kind.isRemoval then [.queued ⟨kind, path, none, 0, ix.ticket⟩] else []) ++
      Session.beginning ix (ix.receive kind path).state) (ix.receive kind path) := by
  have harrived := h.arrive kind path
  have hlast : (T ++ [Event.arrived ix.ticket kind path])[T.length]? =
      some (.arrived ix.ticket kind path) := List.getElem?_concat_length ..
  cases hkind : kind.isRemoval with
  | true =>
    -- It is the latest of its path, since it has just arrived.
    have hreceive : ix.receive kind path =
        { ix with ticket := ix.ticket + 1, latest := ix.latest.insert path ix.ticket }.accept
          ⟨kind, path, none, 0, ix.ticket⟩ := by
      rw [receive, if_neg h.not_destroyed, hkind]
      rfl
    rw [hreceive, if_pos rfl, List.append_cons]
    refine keeps_done h (accept_done ..) (harrived.accept ?_ ⟨_, hlast⟩)
    rw [OrderedMap.get?_insert, if_pos rfl]
  | false =>
    have hreceive : ix.receive kind path =
        .ask { ix with ticket := ix.ticket + 1, latest := ix.latest.insert path ix.ticket } []
          (.lookUp path) (.lookingUp ix.ticket kind path) := by
      rw [receive, if_neg h.not_destroyed, hkind]
      rfl
    have hnone := beginning_of_same h harrived
    rw [hreceive, if_neg Bool.false_ne_true, Stretch.ask, hnone, List.append_nil]
    exact keeps_ask ⟨T.length, hlast⟩ rfl rfl harrived

/-- A lookup that is over queues its change only if no newer one has arrived. -/
theorem keeps_lookedUp (h : InOrder ix others T) {n : Nat} {kind : WatchKind} {path : String}
    (harrived : ∃ i : Nat, T[i]? = some (.arrived n kind path)) (result : Except Failure Entry) :
    Keeps others (T ++ ix.foundEvents n kind path result ++
      Session.beginning ix (ix.lookedUp n kind path result).state)
      (ix.lookedUp n kind path result) := by
  cases result with
  | ok e =>
    refine keeps_done h (accept_done ..) ?_
    simp only [foundEvents, h.live, Bool.not_false, Bool.true_and, decide_eq_true_eq]
    split
    · next hlatest => exact h.accept hlatest harrived
    · next hlatest =>
      rw [lookedUp, Intake.accept, if_neg hlatest, List.append_nil]
      exact h
  | error f =>
    rw [foundEvents, List.append_nil]
    unfold lookedUp
    dsimp only
    split
    · split
      · -- The change is forgotten, and nothing of the order depends on that.
        apply keeps_done h rfl
        refine h.rest (Nat.le_refl _) ?_ rfl rfl rfl
        intro p m hm
        change (ix.latest.erase path).get? p = some m at hm
        rw [OrderedMap.get?_erase] at hm
        split at hm
        · cases hm
        · exact hm
      · exact keeps_done h rfl h
    · exact keeps_done h rfl h

theorem keeps_begin (h : InOrder ix others T) {call : Call} (hcall : call ≠ .destroy)
    (hpublic : ∀ ticket, call ≠ .batch ticket) :
    Keeps others (T ++ ix.arrivalEvents call ++ Session.beginning ix (ix.begin call).state)
      (ix.begin call) := by
  cases call with
  | change kind path =>
    simp only [arrivalEvents, arrival?, h.live, Bool.false_eq_true, if_false, Intake.begin,
      beginChange]
    cases hword : WatchKind.ofWord? kind with
    | none =>
      rw [Option.map_none, List.append_nil]
      exact keeps_done h rfl h
    | some k =>
      rw [Option.map_some]
      exact keeps_receive h k path
  | directoryChange kind path =>
    simp only [arrivalEvents, arrival?, h.live, Bool.false_eq_true, if_false, Intake.begin,
      beginDirectoryChange]
    cases hword : WatchKind.ofWord? kind with
    | none =>
      rw [Option.filter_none, Option.map_none, List.append_nil]
      exact keeps_done h rfl h
    | some k =>
      rw [Option.filter_some]
      dsimp only
      cases k.ofDirectory with
      | true => exact keeps_receive h k path
      | false =>
        change Keeps others (T ++ [] ++ _) _
        rw [List.append_nil]
        exact keeps_done h rfl h
  | batch ticket => exact absurd rfl (hpublic ticket)
  | flush =>
    change Keeps others (T ++ [] ++ _) _
    rw [List.append_nil]
    exact keeps_beginFlush h nofun
  | destroy => exact absurd rfl hcall

end Works

namespace Session

def stages (s : Session) : List Stage :=
  s.flights.filterMap Flight.stage?

/-- A session that keeps the order, with a batch that is being applied or none. -/
structure Ordered (s : Session) : Prop where
  order : ∃ stage : Option Stage, s.stages = stage.toList ∧ InOrder s.intake stage s.trace
  sound : ∀ f ∈ s.flights, f.waiting.Sound s.trace

theorem ordered_change {s : Session} (h : s.Ordered) {intake : Intake}
    (hkeeps : ∀ stage, InOrder s.intake stage s.trace → InOrder intake stage s.trace)
    (effects : List Effect) : (s.change intake effects).Ordered := by
  obtain ⟨⟨stage, hstages, horder⟩, hsound⟩ := h
  refine ⟨⟨stage, ?_, ?_⟩, ?_⟩
  · rw [stages, change_flights]
    exact hstages
  · rw [change_intake, change_trace]
    exact hkeeps stage horder
  · rw [change_flights, change_trace]
    exact hsound

theorem ordered_advance {s : Session} (others : Option Stage) (hstages : s.stages = others.toList)
    (hsound : ∀ f ∈ s.flights, f.waiting.Sound s.trace) {work : Work}
    (h : Keeps others (s.trace ++ beginning s.intake work.state) work) (id : Nat)
    (ticket : Option Nat) : (s.advance id ticket work).Ordered := by
  unfold advance
  unfold Keeps at h
  cases hturn : work.turn with
  | done r =>
    rw [hturn] at h
    refine ⟨⟨others, ?_, ?_⟩, ?_⟩
    · simp only [stages, change_flights]
      exact hstages
    · simp only [change_intake, change_trace]
      exact h
    · simp only [change_flights, change_trace]
      exact fun f hf => (hsound f hf).append _
  | ask request waiting =>
    rw [hturn] at h
    obtain ⟨hwaiting, stage, hstage, horder⟩ := h
    -- The call that waits now brings its batch along, if it applies one.
    refine ⟨⟨stage, ?_, ?_⟩, ?_⟩
    · simp only [stages, note, change_flights, List.filterMap_append]
      rw [← hstage, ← hstages]
      refine congrArg _ ?_
      cases hnew : waiting.stage? with
      | none => simp only [List.filterMap_cons, Flight.stage?, hnew, List.filterMap_nil,
          Option.toList_none]
      | some g => simp only [List.filterMap_cons, Flight.stage?, hnew, List.filterMap_nil,
          Option.toList_some]
    · simp only [note, change_intake, change_trace]
      exact horder
    · intro f hf
      simp only [note, change_flights, change_trace, List.mem_append, List.mem_singleton] at hf ⊢
      rcases hf with hf | rfl
      · exact ((hsound f hf).append _).append _
      · exact hwaiting

/-- Apart from a call that goes on, there is the batch that there was, unless it was its own. -/
theorem Ordered.without {s : Session} (h : s.Ordered) {id : Nat} {f : Flight}
    (hf : s.flights.find? (·.id = id) = some f) :
    f.waiting.Sound s.trace ∧ (∀ g ∈ (s.without f).flights, g.waiting.Sound s.trace) ∧
      (f.stage? = none → ∃ others : Option Stage,
        (s.without f).stages = others.toList ∧ InOrder s.intake others s.trace) ∧
      ∀ g, f.stage? = some g →
        (s.without f).stages = [] ∧ InOrder s.intake (some g) s.trace := by
  obtain ⟨⟨stage, hstages, horder⟩, hsound⟩ := h
  obtain ⟨l₁, l₂, hsplit, hrest⟩ := eraseP_of_find? hf
  have hflights : (s.without f).flights = l₁ ++ l₂ := hrest
  rw [hsplit] at hsound
  rw [stages, hsplit, List.filterMap_append] at hstages
  refine ⟨hsound f (by simp), ?_, ?_, ?_⟩
  · intro g hg
    rw [hflights] at hg
    apply hsound g
    rcases List.mem_append.mp hg with hg | hg
    · exact List.mem_append_left _ hg
    · exact List.mem_append_right _ (List.mem_cons_of_mem f hg)
  · intro hnone
    rw [List.filterMap_cons_none hnone] at hstages
    refine ⟨stage, ?_, horder⟩
    rw [stages, hflights, List.filterMap_append]
    exact hstages
  · intro g hsome
    rw [List.filterMap_cons_some hsome] at hstages
    -- There is one batch at most, so it is this one.
    have hlength := congrArg List.length hstages
    rw [List.length_append, List.length_cons] at hlength
    have hle : stage.toList.length ≤ 1 := by cases stage <;> simp
    have h₁ : l₁.filterMap Flight.stage? = [] :=
      List.eq_nil_of_length_eq_zero (by omega)
    have h₂ : l₂.filterMap Flight.stage? = [] :=
      List.eq_nil_of_length_eq_zero (by omega)
    rw [h₁, h₂] at hstages
    refine ⟨?_, ?_⟩
    · rw [stages, hflights, List.filterMap_append, h₁, h₂]
      rfl
    · cases stage with
      | none => cases hstages
      | some g' =>
        cases hstages
        exact horder

theorem ordered_wake {s : Session} (h : s.Ordered) {id : Nat} {f : Flight}
    (hf : s.flights.find? (·.id = id) = some f) (reply : Reply) : (s.wake f reply).Ordered := by
  obtain ⟨hwaiting, hothers, hidle, hbatch⟩ := h.without hf
  have hsound (events : List Event) : ∀ g ∈ ((s.without f).note events).flights,
      g.waiting.Sound ((s.without f).note events).trace := fun g hg => (hothers g hg).append _
  unfold wake
  split
  · next path n kind path' result hrequest hlookup =>
    rw [hlookup] at hwaiting
    obtain ⟨others, hstages, horder⟩ := hidle (by rw [Flight.stage?, hlookup]; rfl)
    exact ordered_advance (s := (s.without f).note _) others hstages (hsound _)
      (keeps_lookedUp horder hwaiting result) ..
  · next entries stores round result hrequest hstoring =>
    rw [hstoring] at hwaiting
    obtain ⟨hstages, horder⟩ := hbatch ⟨round.removals, stores, round.failed⟩
      (by rw [Flight.stage?, hstoring]; rfl)
    refine ordered_advance (s := (s.without f).note _) none hstages (hsound _) ?_ ..
    change Keeps none (_ ++ beginning s.intake _) _
    rw [beginning_of_busy horder, List.append_nil]
    exact keeps_stored horder hwaiting result
  · next path c round result hrequest hremoving =>
    rw [hremoving] at hwaiting
    obtain ⟨hstages, horder⟩ := hbatch ⟨round.removals, [c], round.failed⟩
      (by rw [Flight.stage?, hremoving]; rfl)
    refine ordered_advance (s := (s.without f).note _) none hstages (hsound _) ?_ ..
    change Keeps none (_ ++ beginning s.intake _) _
    rw [beginning_of_busy horder, List.append_nil]
    exact keeps_removed horder hwaiting result
  · next ticket purpose hrequest hjoining =>
    split
    · exact h
    · rw [hjoining] at hwaiting
      obtain ⟨others, hstages, horder⟩ := hidle (by rw [Flight.stage?, hjoining]; rfl)
      exact ordered_advance others hstages hothers (keeps_flushNow horder hwaiting) ..
  · exact h

theorem ordered_launch {s : Session} (h : s.Ordered) (ticket : Option Nat) {work : Work}
    {events : List Event} (hwork : ∀ others, InOrder s.intake others s.trace →
      Keeps others (s.trace ++ events ++ beginning s.intake work.state) work) :
    ((s.note events).launch ticket work).Ordered := by
  obtain ⟨⟨stage, hstages, horder⟩, hsound⟩ := h
  apply ordered_advance (s := { s.note events with nextId := s.nextId + 1 }) stage hstages
  · exact fun f hf => (hsound f hf).append events
  · exact hwork stage horder

theorem ordered_begin {s : Session} (h : s.Ordered) {call : Call} (hcall : call ≠ .destroy)
    (hpublic : ∀ ticket, call ≠ .batch ticket) :
    ((s.note (s.intake.arrivalEvents call)).launch none (s.intake.begin call)).Ordered :=
  ordered_launch h none fun _ horder => keeps_begin horder hcall hpublic

theorem ordered_step {s : Session} (h : s.Ordered) {a : Action} (ha : a ≠ .begin .destroy) :
    (s.step a).Ordered := by
  cases a with
  | begin call =>
    cases call with
    | change kind path => exact ordered_begin h nofun fun _ => nofun
    | directoryChange kind path => exact ordered_begin h nofun fun _ => nofun
    | batch ticket => exact h
    | flush => exact ordered_begin h nofun fun _ => nofun
    | destroy => exact absurd rfl ha
  | quiet ticket =>
    simp only [step]
    split
    · exact ordered_change (s := { s with quietTimers := s.quietTimers.erase ticket })
        ⟨h.order, h.sound⟩ (fun _ => InOrder.quiet) _
    · exact h
  | gather ticket =>
    simp only [step]
    split
    · exact ordered_change (s := { s with gatherTimers := s.gatherTimers.erase ticket })
        ⟨h.order, h.sound⟩ (fun _ => InOrder.gathered) _
    · exact h
  | startBatch ticket =>
    simp only [step]
    split
    · have hdue : Ordered { s with due := s.due.erase ticket } := ⟨h.order, h.sound⟩
      have hnote : note { s with due := s.due.erase ticket } [] =
          { s with due := s.due.erase ticket } := by
        rw [note, List.append_nil]
      rw [← hnote]
      apply ordered_launch hdue
      intro others horder
      rw [List.append_nil]
      exact keeps_process horder nofun
    · exact h
  | resume id reply =>
    simp only [step]
    split
    · next f hf => exact ordered_wake h hf reply
    · exact h

theorem ordered_fresh (root : String) (options : Options) : (fresh root options).Ordered := by
  have hnone (i : Nat) (e : Event) : ([] : List Event)[i]? ≠ some e := by
    rw [List.getElem?_nil]
    exact nofun
  refine ⟨⟨none, rfl, ⟨rfl, rfl, ⟨?_, ?_, ?_, ?_⟩, ?_, ?_, ?_⟩⟩, ?_⟩
  · exact fun i _ _ _ hi => absurd hi (hnone i _)
  · exact fun i _ _ _ _ _ _ _ _ hi => absurd hi (hnone i _)
  · exact fun j _ hj => absurd hj (hnone j _)
  · exact fun _ _ hn => nomatch hn
  · exact fun _ _ hc => nomatch hc
  · exact fun j _ hj => absurd hj (hnone j _)
  · exact fun _ hg => nomatch hg
  · exact fun _ hf => nomatch hf

theorem ordered_run {s : Session} (h : s.Ordered) {actions : List Action}
    (hlive : .begin .destroy ∉ actions) : (s.run actions).Ordered := by
  induction actions generalizing s with
  | nil => exact h
  | cons a actions ih =>
    rw [List.mem_cons, not_or] at hlive
    exact ih (ordered_step h (Ne.symm hlive.1)) hlive.2

/-- As long as an intake is not ended, it applies one batch at a time, and hands over the changes of
each path in the order of their arrival. A change is handed over again only after it has failed, and
only by a batch before which nothing newer of its path was queued. -/
theorem handed_in_order (root : String) (options : Options) (actions : List Action)
    (hlive : .begin .destroy ∉ actions) :
    let s := (fresh root options).run actions
    s.stages.length ≤ 1 ∧
      (∀ (i j : Nat) m n k l p r, i < j → s.trace[i]? = some (.arrived m k p) →
        s.trace[j]? = some (.arrived n l r) → m < n) ∧
      (∀ (j : Nat) calls, s.trace[j]? = some (.handed calls) → (calls.map Change.path).Nodup ∧
        ∀ c ∈ calls, ∃ i < j, s.trace[i]? = some (.arrived c.arrival c.kind c.path)) ∧
      ∀ (i j : Nat) earlier later c d, i < j → s.trace[i]? = some (.handed earlier) →
        s.trace[j]? = some (.handed later) → c ∈ earlier → d ∈ later → c.path = d.path →
        c.arrival < d.arrival ∨
          (c.arrival = d.arrival ∧ ∃ b, BeginsAt s.trace b j ∧ FailedBetween s.trace i b c ∧
            QuietBetween s.trace i b c.path) := by
  intro s
  obtain ⟨⟨stage, hstages, horder⟩, -⟩ := ordered_run (ordered_fresh root options) hlive
  refine ⟨?_, horder.arrivals.rising, ?_, ?_⟩
  · change s.stages = stage.toList at hstages
    rw [hstages]
    cases stage <;> simp
  · intro j calls hcalls
    obtain ⟨hnodup, b, -, hright⟩ := horder.handed j calls hcalls
    refine ⟨hnodup, ?_⟩
    intro c hc
    obtain ⟨i, q, hij, hq, hpath, harrival, hkind⟩ := (hright c hc).2.1
    obtain ⟨k, hki, hk⟩ := horder.arrivals.known i q hq
    rw [hpath, harrival, hkind] at hk
    exact ⟨k, by omega, hk⟩
  · intro i j earlier later c d hij hearlier hlater hc hd hpath
    obtain ⟨-, b, hbegins, hright⟩ := horder.handed j later hlater
    obtain ⟨hfollow, -, hunhanded⟩ := hright d hd
    rcases Nat.lt_trichotomy i b with hlt | rfl | hgt
    · rcases hfollow i earlier c hlt hearlier hc hpath with hless | ⟨heq, hfailed, hquiet⟩
      · exact .inl hless
      · rw [← hpath] at hquiet
        exact .inr ⟨heq, b, hbegins, hfailed, hquiet⟩
    · have hbegun := hbegins.2.1
      rw [hearlier] at hbegun
      cases hbegun
    · exact absurd hpath (hunhanded i earlier c hgt hij hearlier hc)

/-- A removal that failed is handed over again by the next batch. -/
theorem handed_in_order_retry :
    let s := (fresh "/data" .default).run
      [ .begin (.change "remove" "/data/p"), .begin .flush,
        .resume 1 (.served (.error (.device "disk full"))), .begin .flush ]
    ∃ b, BeginsAt s.trace b 6 ∧ FailedBetween s.trace 3 b ⟨.remove, "/data/p", none, 0, 1⟩ ∧
      QuietBetween s.trace 3 b "/data/p" := by
  obtain ⟨-, -, -, hpairs⟩ := handed_in_order "/data" .default
    [ .begin (.change "remove" "/data/p"), .begin .flush,
      .resume 1 (.served (.error (.device "disk full"))), .begin .flush ] (by simp)
  have hpair := hpairs 3 6 [⟨.remove, "/data/p", none, 0, 1⟩] [⟨.remove, "/data/p", none, 1, 1⟩]
    ⟨.remove, "/data/p", none, 0, 1⟩ ⟨.remove, "/data/p", none, 1, 1⟩ (by decide) (by decide)
    (by decide) List.mem_cons_self List.mem_cons_self rfl
  rcases hpair with hless | ⟨-, hagain⟩
  · exact absurd hless (by decide)
  · exact hagain

/-- Once a batch has begun, a change that it hands over again is not held back by a newer one of its
path that is queued before its turn comes. -/
theorem handed_again_after_newer :
    ¬∀ (root : String) (options : Options) (actions : List Action),
      .begin .destroy ∉ actions →
      let T := ((fresh root options).run actions).trace
      ∀ (i j : Nat) earlier later c d, i < j → T[i]? = some (.handed earlier) →
        T[j]? = some (.handed later) → c ∈ earlier → d ∈ later → c.path = d.path →
        c.arrival < d.arrival ∨
          (c.arrival = d.arrival ∧ FailedBetween T i j c ∧ QuietBetween T i j c.path) := by
  intro hclaim
  have hpair := hclaim "/data" .default
    [ .begin (.change "remove" "/data/q"), .begin (.change "remove" "/data/p"), .begin .flush,
      .resume 2 (.served (.error (.device "disk full"))),
      .resume 2 (.served (.error (.device "disk full"))), .begin .flush,
      .begin (.change "remove" "/data/p"),
      .resume 3 (.served (.error (.device "disk full"))) ] (by simp)
    7 14 [⟨.remove, "/data/p", none, 0, 3⟩] [⟨.remove, "/data/p", none, 1, 3⟩]
    ⟨.remove, "/data/p", none, 0, 3⟩ ⟨.remove, "/data/p", none, 1, 3⟩ (by decide) (by decide)
    (by decide) List.mem_cons_self List.mem_cons_self rfl
  rcases hpair with hless | ⟨-, -, hquiet⟩
  · exact absurd hless (by decide)
  · exact hquiet 12 ⟨.remove, "/data/p", none, 0, 6⟩ (by decide) (by decide) (by decide) rfl

end Session

end LiveIndex.Intake
