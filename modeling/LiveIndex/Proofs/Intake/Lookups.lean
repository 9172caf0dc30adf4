import LiveIndex.Proofs.Intake.Origins

/-! The lookups of an intake. Each has a number of its own, and it is the latest of its path unless
a later change of the path has arrived; what it has found out is queued if it is the latest. -/

namespace LiveIndex.Intake

/-- The number of the arrival whose lookup a call waits for. -/
def Waiting.number? : Waiting → Option Nat
  | .lookingUp n _ _ => some n
  | _ => none

def Flight.number? (f : Flight) : Option Nat :=
  f.waiting.number?

/-- Work that neither begins nor ends a lookup. -/
structure Plain (ix : Intake) (work : Work) : Prop where
  latest : work.state.latest = ix.latest
  number : ∀ id ticket, (flightsAfter id ticket work.turn).filterMap Flight.number? = []

section Works

variable (ix : Intake)

theorem plain_conclude {purpose : Purpose} (hp : purpose ≠ .destroy) :
    Plain ix (ix.conclude purpose) := by
  cases purpose with
  | timed ticket => exact ⟨rfl, fun _ _ => rfl⟩
  | flush => exact ⟨rfl, fun _ _ => rfl⟩
  | destroy => exact absurd rfl hp

theorem retryAll_latest (failed : List Change) : (ix.retryAll failed).1.latest = ix.latest := by
  have hretry (ix : Intake) (c : Change) : (ix.retry c).1.latest = ix.latest := by
    unfold Intake.retry
    split
    · rfl
    · split <;> rfl
  induction failed generalizing ix with
  | nil => rfl
  | cons c rest ih => rw [retryAll_cons, ih, hretry]

theorem plain_nextRemoval (round : Round) (hp : round.purpose ≠ .destroy) :
    Plain ix (ix.nextRemoval round) := by
  have hlatest := ix.retryAll_latest round.failed
  unfold nextRemoval
  split
  · unfold roundOver
    dsimp only
    split
    · have hplain := plain_conclude { (ix.retryAll round.failed).1 with processing := false } hp
      exact ⟨hplain.latest.trans hlatest, hplain.number⟩
    · have hplain := plain_conclude
        { (ix.retryAll round.failed).1 with processing := false }.awaitQuiet.1 hp
      exact ⟨hplain.latest.trans hlatest, hplain.number⟩
  · exact ⟨rfl, fun _ _ => rfl⟩

theorem plain_process {purpose : Purpose} (hp : purpose ≠ .destroy) :
    Plain ix (ix.process purpose) := by
  unfold process
  split
  · exact plain_conclude ix hp
  · dsimp only
    split
    · have hplain := plain_nextRemoval { ix with processing := true, queue := .empty }
        ⟨purpose, ix.queue.values.filter Change.isRemoval, []⟩ hp
      exact ⟨hplain.latest, hplain.number⟩
    · exact ⟨rfl, fun _ _ => rfl⟩

theorem plain_flushNow {purpose : Purpose} (hp : purpose ≠ .destroy) :
    Plain ix (ix.flushNow purpose) := by
  have hplain := plain_process ix.disarmTimers.1 hp
  exact ⟨hplain.latest, hplain.number⟩

theorem plain_beginFlush {purpose : Purpose} (hp : purpose ≠ .destroy) :
    Plain ix (ix.beginFlush purpose) := by
  unfold beginFlush
  dsimp only
  split
  · exact ⟨rfl, fun _ _ => rfl⟩
  · have hplain := plain_flushNow ix.disarmTimers.1 hp
    exact ⟨hplain.latest, hplain.number⟩

theorem plain_stored (stores : List Change) {round : Round} (hp : round.purpose ≠ .destroy)
    (result : Except Failure Unit) : Plain ix (ix.stored stores round result) := by
  cases result with
  | ok _ => exact plain_nextRemoval ix round hp
  | error f =>
    have hplain := plain_nextRemoval ix { round with failed := round.failed ++ stores } hp
    exact ⟨hplain.latest, hplain.number⟩

theorem plain_removed (c : Change) {round : Round} (hp : round.purpose ≠ .destroy)
    (result : Except Failure Unit) : Plain ix (ix.removed c round result) := by
  cases result with
  | ok _ => exact plain_nextRemoval ix round hp
  | error f =>
    have hplain := plain_nextRemoval ix { round with failed := round.failed ++ [c] } hp
    exact ⟨hplain.latest, hplain.number⟩

/-- A call either brings a change in or leaves the lookups alone. -/
theorem begin_cases (hlive : ix.destroyed = false) {call : Call} (hcall : call ≠ .destroy) :
    (∃ kind path, ix.arrival? call = some (kind, path) ∧ ix.begin call = ix.receive kind path) ∨
      ix.arrival? call = none ∧ Plain ix (ix.begin call) := by
  have hfailed (f : Failure) : Plain ix (.failed ix [] f) := ⟨rfl, fun _ _ => rfl⟩
  cases call with
  | change kind path =>
    simp only [arrival?, hlive, Bool.false_eq_true, if_false, Intake.begin, beginChange]
    cases WatchKind.ofWord? kind with
    | none => exact .inr ⟨rfl, hfailed _⟩
    | some k => exact .inl ⟨k, path, rfl, rfl⟩
  | directoryChange kind path =>
    simp only [arrival?, hlive, Bool.false_eq_true, if_false, Intake.begin, beginDirectoryChange]
    cases WatchKind.ofWord? kind with
    | none => exact .inr ⟨rfl, hfailed _⟩
    | some k =>
      cases hdirectory : k.ofDirectory with
      | true =>
        refine .inl ⟨k, path, ?_, ?_⟩
        · rw [Option.filter_some, hdirectory]
          rfl
        · dsimp only
          rw [if_pos hdirectory]
      | false =>
        refine .inr ⟨?_, ?_⟩
        · rw [Option.filter_some, hdirectory]
          rfl
        · dsimp only
          rw [if_neg (Bool.eq_false_iff.mp hdirectory)]
          exact hfailed _
  | batch ticket => exact .inr ⟨rfl, plain_process ix (by simp)⟩
  | flush => exact .inr ⟨rfl, plain_beginFlush ix (by simp)⟩
  | destroy => exact absurd rfl hcall

end Works

namespace Session

variable {s t : Session} {a : Action}

/-- A later change of a path has arrived. -/
def Superseded (s : Session) (n : Nat) (path : String) : Prop :=
  ∃ m kind, n < m ∧ .arrived m kind path ∈ s.trace

/-- Lookups have numbers of their own, and each is the latest of its path or superseded. -/
structure Looking (s : Session) : Prop where
  apart : (s.flights.filterMap Flight.number?).Nodup
  latest : ∀ f ∈ s.flights, ∀ n kind path, f.waiting = .lookingUp n kind path →
    s.intake.latest.get? path = some n ∨ s.Superseded n path

theorem superseded_step {n : Nat} {path : String} (h : s.Superseded n path) (a : Action) :
    (s.step a).Superseded n path := by
  obtain ⟨m, kind, hlt, hm⟩ := h
  obtain ⟨new, htrace, -⟩ := s.step_trace a
  exact ⟨m, kind, hlt, htrace ▸ List.mem_append_left _ hm⟩

theorem looking_fresh (root : String) (options : Options) : (fresh root options).Looking :=
  ⟨List.nodup_nil, fun _ hf => absurd hf List.not_mem_nil⟩

/-- Nothing comes of a step that leaves the lookups alone. -/
theorem Looking.of_sublist (h : s.Looking)
    (hnumbers : (t.flights.filterMap Flight.number?).Sublist (s.flights.filterMap Flight.number?))
    (hflights : ∀ f ∈ t.flights, f ∈ s.flights ∨ f.number? = none)
    (hlatest : ∀ f ∈ t.flights, ∀ n kind path, f.waiting = .lookingUp n kind path →
      s.intake.latest.get? path = some n ∨ s.Superseded n path →
      t.intake.latest.get? path = some n ∨ t.Superseded n path) : t.Looking := by
  refine ⟨h.apart.sublist hnumbers, ?_⟩
  intro f hf n kind path hwaiting
  refine hlatest f hf n kind path hwaiting ?_
  rcases hflights f hf with hold | hnone
  · exact h.latest f hold n kind path hwaiting
  · rw [Flight.number?, hwaiting] at hnone
    cases hnone

/-- The work of a step begins a lookup, ends one, or leaves the lookups alone. -/
theorem work_cases (horder : s.Ordered) (ha : a ≠ .begin .destroy) {g : Option Flight} {work : Work}
    (h : s.Doing a g work) : Plain s.intake work ∨
      (g = none ∧ ∃ call kind path, a = .begin call ∧
        s.intake.arrival? call = some (kind, path) ∧ work = s.intake.receive kind path) ∨
      ∃ f n kind path result, g = some f ∧ f.waiting = .lookingUp n kind path ∧
        work = s.intake.lookedUp n kind path result := by
  obtain ⟨stage, -, hin⟩ := horder.order
  have hsound {id : Nat} {f : Flight} (hf : s.flights.find? (·.id = id) = some f) :=
    horder.sound f (List.mem_of_find?_eq_some hf)
  cases h with
  | begun hcall =>
    rcases begin_cases s.intake hin.live (fun hd => ha (congrArg Action.begin hd)) with
      ⟨kind, path, harrival, hreceive⟩ | ⟨-, hplain⟩
    · exact .inr (.inl ⟨rfl, _, kind, path, rfl, harrival, hreceive⟩)
    · exact .inl hplain
  | batch ticket => exact .inl (plain_process s.intake (by simp))
  | found hf hwaiting result => exact .inr (.inr ⟨_, _, _, _, result, rfl, hwaiting, rfl⟩)
  | stored hf hwaiting result =>
    have hp := hsound hf
    rw [hwaiting] at hp
    exact .inl (plain_stored s.intake _ hp result)
  | removed hf hwaiting result =>
    have hp := hsound hf
    rw [hwaiting] at hp
    exact .inl (plain_removed s.intake _ hp result)
  | joined hf hwaiting =>
    have hp := hsound hf
    rw [hwaiting] at hp
    exact .inl (plain_flushNow s.intake hp)

theorem number_lt (horder : s.Ordered) {f : Flight} (hf : f ∈ s.flights) {n : Nat}
    (hn : f.number? = some n) : n < s.intake.ticket := by
  obtain ⟨stage, -, hin⟩ := horder.order
  have hsound := horder.sound f hf
  obtain ⟨id, ticket, request, waiting⟩ := f
  cases waiting with
  | lookingUp m kind path =>
    obtain rfl : m = n := Option.some.inj hn
    obtain ⟨i, hi⟩ := hsound
    exact hin.arrivals.below i m kind path hi
  | _ => cases hn

/-- The number of a call that goes on is that of no other one. -/
theorem number_ne (h : s.Looking) {id : Nat} {f g : Flight}
    (hg : s.flights.find? (·.id = id) = some g) (hf : f ∈ (s.without g).flights) {n : Nat}
    (hn : g.number? = some n) : f.number? ≠ some n := by
  obtain ⟨l₁, l₂, hsplit, hrest⟩ := eraseP_of_find? hg
  have hapart := h.apart
  rw [hsplit, List.filterMap_append, List.filterMap_cons_some hn, List.nodup_middle] at hapart
  intro hsame
  refine (List.nodup_cons.mp hapart).1 ?_
  rw [← List.filterMap_append, ← hrest]
  exact List.mem_filterMap.mpr ⟨f, hf, hsame⟩

theorem others_sublist (s : Session) (g : Option Flight) : (s.others g).Sublist s.flights := by
  cases g with
  | none => exact List.Sublist.refl _
  | some g => exact List.eraseP_sublist

theorem latest_erase {ix : Intake} {n : Nat} {path : String}
    (h : ix.latest.get? path = some n) (p : String) :
    (ix.latest.erase path).get? p = ix.latest.get? p ∨
      p = path ∧ ix.latest.get? path = some n := by
  rw [OrderedMap.get?_erase]
  split
  · next hp => exact .inr ⟨hp.symm, h⟩
  · exact .inl rfl

/-- What is queued is not looked up any more. -/
theorem latest_accept (ix : Intake) (c : Change) (p : String) :
    (ix.accept c).state.latest.get? p = ix.latest.get? p ∨
      p = c.path ∧ ix.latest.get? c.path = some c.arrival := by
  unfold Intake.accept
  split
  · next hlatest =>
    unfold enqueue
    dsimp only
    split <;> exact latest_erase hlatest p
  · exact .inl rfl

theorem latest_lookedUp (ix : Intake) (n : Nat) (kind : WatchKind) (path : String)
    (result : Except Failure Entry) (p : String) :
    (ix.lookedUp n kind path result).state.latest.get? p = ix.latest.get? p ∨
      p = path ∧ ix.latest.get? path = some n := by
  cases result with
  | ok e => exact latest_accept ix ⟨kind, path, some e, 0, n⟩ p
  | error f =>
    unfold lookedUp
    dsimp only
    split
    · split
      · next hlatest => exact latest_erase hlatest p
      · exact .inl rfl
    · exact .inl rfl

theorem lookedUp_done (ix : Intake) (n : Nat) (kind : WatchKind) (path : String)
    (result : Except Failure Entry) :
    ∃ answer, (ix.lookedUp n kind path result).turn = .done answer := by
  cases result with
  | ok e => exact ⟨_, accept_done ..⟩
  | error f =>
    unfold lookedUp
    dsimp only
    split
    · split <;> exact ⟨_, rfl⟩
    · exact ⟨_, rfl⟩

/-- What arrives is the latest of its path, and the other paths are as they were. -/
theorem latest_receive {ix : Intake} (hlive : ix.destroyed = false) (kind : WatchKind)
    (path : String) :
    (∀ p ≠ path, (ix.receive kind path).state.latest.get? p = ix.latest.get? p) ∧
      ((∃ result, (ix.receive kind path).turn = .done result) ∨
        (ix.receive kind path).turn = .ask (.lookUp path) (.lookingUp ix.ticket kind path) ∧
          (ix.receive kind path).state.latest.get? path = some ix.ticket) := by
  have hother {p : String} (hp : p ≠ path) :
      (ix.latest.insert path ix.ticket).get? p = ix.latest.get? p := by
    rw [OrderedMap.get?_insert, if_neg hp.symm]
  have hnot : ¬ix.destroyed = true := by
    rw [hlive]
    exact Bool.false_ne_true
  rw [receive, if_neg hnot]
  dsimp only
  split
  · refine ⟨?_, .inl ⟨_, accept_done ..⟩⟩
    intro p hp
    rcases latest_accept
      { ix with ticket := ix.ticket + 1, latest := ix.latest.insert path ix.ticket }
      ⟨kind, path, none, 0, ix.ticket⟩ p with hsame | ⟨hpath, -⟩
    · exact hsame.trans (hother hp)
    · exact absurd hpath hp
  · refine ⟨fun p hp => hother hp, .inr ⟨rfl, ?_⟩⟩
    exact (OrderedMap.get?_insert ..).trans (if_pos rfl)

/-- Work that leaves the lookups alone. -/
theorem Looking.plain (h : s.Looking) {g : Option Flight} {work : Work}
    (hplain : Plain s.intake work) (hworks : s.Works a g work (s.step a)) : (s.step a).Looking := by
  obtain ⟨id, ticket, hflights⟩ := hworks.flights
  have hnone := hplain.number id ticket
  refine h.of_sublist ?_ ?_ ?_
  · rw [hflights, List.filterMap_append, hnone, List.append_nil]
    exact (s.others_sublist g).filterMap _
  · intro f hf
    rw [hflights] at hf
    rcases List.mem_append.mp hf with hf | hf
    · exact .inl (s.others_subset g hf)
    · exact .inr (List.filterMap_eq_nil_iff.mp hnone f hf)
  · intro f _ n kind path _ hor
    rw [hworks.state, hplain.latest]
    exact hor.imp_right fun hs => superseded_step hs a

/-- Something arrives. A lookup that is under way at the same path is superseded by it. -/
theorem Looking.arrives (h : s.Looking) (horder : s.Ordered) {call : Call} {kind : WatchKind}
    {path : String} (harrival : s.intake.arrival? call = some (kind, path))
    (hworks : s.Works (.begin call) none (s.intake.receive kind path) (s.step (.begin call))) :
    (s.step (.begin call)).Looking := by
  obtain ⟨id, ticket, hflights⟩ := hworks.flights
  obtain ⟨stage, -, hin⟩ := horder.order
  obtain ⟨hother, hturn⟩ := latest_receive hin.live kind path
  have harrived : .arrived s.intake.ticket kind path ∈ (s.step (.begin call)).trace := by
    have hnoted : .arrived s.intake.ticket kind path ∈ s.noted (.begin call) := by
      rw [noted, arrivalEvents, harrival]
      exact List.mem_cons_self
    rw [hworks.trace]
    exact List.mem_append_left _ (List.mem_append_left _ (List.mem_append_right _ hnoted))
  have hlatest : ∀ f ∈ s.flights, ∀ n kind' path', f.waiting = .lookingUp n kind' path' →
      (s.step (.begin call)).intake.latest.get? path' = some n ∨
        (s.step (.begin call)).Superseded n path' := by
    intro f hf n kind' path' hwaiting
    by_cases hpath : path' = path
    · subst hpath
      have hn : f.number? = some n := by rw [Flight.number?, hwaiting, Waiting.number?]
      exact .inr ⟨_, kind, number_lt horder hf hn, harrived⟩
    · rw [hworks.state, hother path' hpath]
      exact (h.latest f hf n kind' path' hwaiting).imp_right fun hs => superseded_step hs _
  change (s.step (.begin call)).flights = s.flights ++ _ at hflights
  rcases hturn with ⟨result, hdone⟩ | ⟨hask, hnew⟩
  · rw [hdone, flightsAfter, List.append_nil] at hflights
    refine ⟨?_, ?_⟩
    · rw [hflights]
      exact h.apart
    · rw [hflights]
      exact hlatest
  · rw [hask, flightsAfter] at hflights
    refine ⟨?_, ?_⟩
    · rw [hflights, List.filterMap_append]
      refine List.nodup_append.mpr ⟨h.apart, List.nodup_singleton _, ?_⟩
      rintro n hn m hm rfl
      obtain rfl : n = s.intake.ticket := List.mem_singleton.mp hm
      obtain ⟨f, hf, hnumber⟩ := List.mem_filterMap.mp hn
      exact Nat.lt_irrefl _ (number_lt horder hf hnumber)
    · intro f hf n kind' path' hwaiting
      rw [hflights] at hf
      rcases List.mem_append.mp hf with hf | hf
      · exact hlatest f hf n kind' path' hwaiting
      · rw [List.mem_singleton.mp hf] at hwaiting
        cases hwaiting
        rw [hworks.state]
        exact .inl hnew

/-- A lookup is over. Another one of the same path was not the latest, so it is superseded
already. -/
theorem Looking.resolves (h : s.Looking) {f : Flight} {n : Nat} {kind : WatchKind} {path : String}
    {result : Except Failure Entry} (hwaiting : f.waiting = .lookingUp n kind path)
    (hworks : s.Works a (some f) (s.intake.lookedUp n kind path result) (s.step a)) :
    (s.step a).Looking := by
  obtain ⟨id, ticket, hflights⟩ := hworks.flights
  obtain ⟨number, hf⟩ := hworks.doing.found?
  obtain ⟨answer, hdone⟩ := lookedUp_done s.intake n kind path result
  have hnumber : f.number? = some n := by rw [Flight.number?, hwaiting, Waiting.number?]
  change (s.step a).flights = (s.without f).flights ++ _ at hflights
  rw [hdone, flightsAfter, List.append_nil] at hflights
  refine ⟨?_, ?_⟩
  · rw [hflights]
    exact h.apart.sublist (List.eraseP_sublist.filterMap _)
  · intro g hg m kind' path' hother
    rw [hflights] at hg
    have hold := h.latest g (List.eraseP_subset hg) m kind' path' hother
    have hne : m ≠ n := by
      rintro rfl
      refine number_ne h hf hg hnumber ?_
      rw [Flight.number?, hother, Waiting.number?]
    rw [hworks.state]
    rcases latest_lookedUp s.intake n kind path result path' with hsame | ⟨rfl, hlatest⟩
    · rw [hsame]
      exact hold.imp_right fun hs => superseded_step hs a
    · refine .inr (superseded_step (hold.resolve_left ?_) a)
      rw [hlatest]
      exact fun hm => hne (Option.some.inj hm).symm

theorem looking_step (horder : s.Ordered) (ha : a ≠ .begin .destroy) (h : s.Looking) :
    (s.step a).Looking := by
  rcases s.step_cases a with hrests | ⟨g, work, hworks⟩
  · refine h.of_sublist ?_ ?_ ?_
    · rw [hrests.flights]
    · rw [hrests.flights]
      exact fun f hf => .inl hf
    · intro f _ n kind path _ hor
      rw [hrests.latest]
      exact hor.imp_right fun hs => superseded_step hs a
  · rcases work_cases horder ha hworks.doing with
      hplain | ⟨rfl, call, kind, path, rfl, harrival, rfl⟩ |
        ⟨f, n, kind, path, result, rfl, hwaiting, rfl⟩
    · exact h.plain hplain hworks
    · exact h.arrives horder harrival hworks
    · exact h.resolves hwaiting hworks

/-- A change of a path is superseded by one that is queued and newer. -/
theorem superseded_of_queued (horder : s.Ordered) {q : Change} (hq : .queued q ∈ s.trace) {n : Nat}
    (hlt : n < q.arrival) : s.Superseded n q.path := by
  obtain ⟨stage, -, hin⟩ := horder.order
  obtain ⟨j, hj⟩ := List.getElem?_of_mem hq
  obtain ⟨i, -, hi⟩ := hin.arrivals.known j q hj
  exact ⟨q.arrival, q.kind, hlt, List.mem_of_getElem? hi⟩

/-- Two arrivals under one number are one. -/
theorem arrived_inj (horder : s.Ordered) {n : Nat} {kind kind' : WatchKind} {path path' : String}
    (h : .arrived n kind path ∈ s.trace) (h' : .arrived n kind' path' ∈ s.trace) :
    path = path' := by
  obtain ⟨stage, -, hin⟩ := horder.order
  obtain ⟨i, hi⟩ := List.getElem?_of_mem h
  obtain ⟨j, hj⟩ := List.getElem?_of_mem h'
  rcases Nat.lt_trichotomy i j with hlt | rfl | hlt
  · exact absurd (hin.arrivals.rising i j n n kind kind' path path' hlt hi hj) (Nat.lt_irrefl n)
  · rw [hi] at hj
    cases hj
    rfl
  · exact absurd (hin.arrivals.rising j i n n kind' kind path' path hlt hj hi) (Nat.lt_irrefl n)

/-- What was looked up is to be handed over, unless a later change of its path has arrived. -/
theorem awaits_lookedUp (horder : s.Ordered) (hlooking : s.Looking)
    (hasks : ∀ f ∈ s.flights, f.waiting.Asks f.request) {id : Nat} {f : Flight}
    (hf : s.flights.find? (·.id = id) = some f) {n : Nat} {kind : WatchKind} {path : String}
    (hwaiting : f.waiting = .lookingUp n kind path) (e : Entry) :
    (s.step (.resume id (.found (.ok e)))).Awaits ⟨kind, path, some e, 0, n⟩ ∨
      s.Superseded n path := by
  have hmem := List.mem_of_find?_eq_some hf
  rcases hlooking.latest f hmem n kind path hwaiting with hlatest | hsuperseded
  · obtain ⟨stage, -, hin⟩ := horder.order
    have hrequest := hasks f hmem
    obtain ⟨number, ticket, request, waiting⟩ := f
    obtain rfl : waiting = _ := hwaiting
    obtain ⟨-, rfl⟩ := hrequest
    have hnoted : .queued ⟨kind, path, some e, 0, n⟩ ∈ s.noted (.resume id (.found (.ok e))) := by
      have hevents : s.intake.foundEvents n kind path (.ok e) =
          [.queued ⟨kind, path, some e, 0, n⟩] := by
        simp [foundEvents, hin.live, hlatest]
      rw [noted, hf]
      change _ ∈ s.intake.foundEvents n kind path (.ok e)
      rw [hevents]
      exact List.mem_singleton_self _
    have hown : Action.resume id (.found (.ok e)) ≠ .begin .destroy := by simp
    exact .inl (.inl (queue_of_noted horder hown hnoted))
  · exact .inr hsuperseded

end Session

end LiveIndex.Intake
