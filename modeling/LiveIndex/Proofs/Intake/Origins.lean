import LiveIndex.Proofs.Intake.Ledger

/-! Where the changes that an intake holds come from and what becomes of them in one step. A change
is queued where it arrives or where its lookup ends. -/

namespace LiveIndex.Intake

/-- What a call asks for, by what it waits for. -/
def Waiting.Asks : Waiting → Request → Prop
  | .lookingUp _ kind path, request => kind.isRemoval = false ∧ request = .lookUp path
  | .storing stores round, request => request = .store (stores.filterMap Change.entry) ∧
      (∀ c ∈ stores, c.isRemoval = false) ∧ ∀ c ∈ round.removals, c.isRemoval = true
  | .removing c round, request => request = .remove c.path ∧
      ∀ d ∈ c :: round.removals, d.isRemoval = true
  | .joining _, request => ∃ ticket, request = .batch ticket

/-- Work after which a call asks for what it waits for. -/
structure Asking (work : Work) : Prop where
  asks : ∀ request waiting, work.turn = .ask request waiting → waiting.Asks request

section Works

variable (ix : Intake)

theorem asking_of_done {work : Work} {result : Except Failure Unit} (h : work.turn = .done result) :
    Asking work := by
  refine ⟨?_⟩
  intro request waiting hturn
  rw [h] at hturn
  cases hturn

theorem asking_receive (kind : WatchKind) (path : String) : Asking (ix.receive kind path) := by
  unfold receive
  split
  · exact asking_of_done rfl
  · dsimp only
    split
    · exact asking_of_done (accept_done ..)
    · next hkind =>
      refine ⟨?_⟩
      intro request waiting hturn
      cases hturn
      exact ⟨Bool.eq_false_iff.mpr hkind, rfl⟩

theorem asking_lookedUp (n : Nat) (kind : WatchKind) (path : String)
    (result : Except Failure Entry) : Asking (ix.lookedUp n kind path result) := by
  unfold lookedUp
  split
  · exact asking_of_done (accept_done ..)
  · split
    · split <;> exact asking_of_done rfl
    · exact asking_of_done rfl

theorem asking_nextRemoval {round : Round} (hround : ∀ c ∈ round.removals, c.isRemoval = true) :
    Asking (ix.nextRemoval round) := by
  unfold nextRemoval
  split
  · unfold roundOver
    dsimp only
    split <;> exact asking_of_done (conclude_done ..)
  · next c rest hremovals =>
    refine ⟨?_⟩
    intro request waiting hturn
    cases hturn
    rw [hremovals] at hround
    exact ⟨rfl, hround⟩

theorem asking_process (purpose : Purpose) : Asking (ix.process purpose) := by
  unfold process
  split
  · exact asking_of_done (conclude_done ..)
  · have hstores : ∀ c ∈ ix.queue.values.filter fun c => !c.isRemoval, c.isRemoval = false :=
      fun c hc => (Bool.not_eq_true' _).mp (List.mem_filter.mp hc).2
    have hremovals : ∀ c ∈ ix.queue.values.filter Change.isRemoval, c.isRemoval = true :=
      fun c hc => (List.mem_filter.mp hc).2
    dsimp only
    split
    · exact asking_nextRemoval _ hremovals
    · refine ⟨?_⟩
      intro request waiting hturn
      cases hturn
      exact ⟨rfl, hstores, hremovals⟩

theorem asking_beginFlush (purpose : Purpose) : Asking (ix.beginFlush purpose) := by
  unfold beginFlush
  dsimp only
  split
  · next ticket _ =>
    refine ⟨?_⟩
    intro request waiting hturn
    cases hturn
    exact ⟨ticket, rfl⟩
  · exact ⟨(asking_process _ purpose).asks⟩

theorem asking_begin (call : Call) : Asking (ix.begin call) := by
  cases call with
  | change kind path =>
    simp only [Intake.begin, beginChange]
    split
    · exact asking_receive ..
    · exact asking_of_done rfl
  | directoryChange kind path =>
    simp only [Intake.begin, beginDirectoryChange]
    split
    · split
      · exact asking_receive ..
      · exact asking_of_done rfl
    · exact asking_of_done rfl
  | batch ticket => exact asking_process ..
  | flush => exact asking_beginFlush ..
  | destroy => exact ⟨(asking_beginFlush ix .destroy).asks⟩

theorem asking_stored (stores : List Change) {round : Round}
    (hround : ∀ c ∈ round.removals, c.isRemoval = true) (result : Except Failure Unit) :
    Asking (ix.stored stores round result) := by
  cases result with
  | ok _ => exact asking_nextRemoval ix hround
  | error _ =>
    have hnext : Asking (ix.nextRemoval { round with failed := round.failed ++ stores }) :=
      asking_nextRemoval ix hround
    exact ⟨hnext.asks⟩

theorem asking_removed (c : Change) {round : Round}
    (hround : ∀ c ∈ round.removals, c.isRemoval = true) (result : Except Failure Unit) :
    Asking (ix.removed c round result) := by
  cases result with
  | ok _ => exact asking_nextRemoval ix hround
  | error _ =>
    have hnext : Asking (ix.nextRemoval { round with failed := round.failed ++ [c] }) :=
      asking_nextRemoval ix hround
    exact ⟨hnext.asks⟩

end Works

section Queues

variable {ix : Intake}

theorem mem_values_insert {queue : OrderedMap String Change} {path : String} {c d : Change}
    (h : d ∈ (queue.insert path c).values) : d = c ∨ d ∈ queue.values := by
  obtain ⟨p, hp⟩ := OrderedMap.mem_values_iff.mp h
  rw [OrderedMap.get?_insert] at hp
  split at hp
  · exact .inl (Option.some.inj hp).symm
  · exact .inr (OrderedMap.mem_values_iff.mpr ⟨p, hp⟩)

theorem mem_of_failing {calls : List Change} {result : Except Failure Unit} {c : Change}
    (h : c ∈ failing calls result) : c ∈ calls := by
  cases result with
  | ok _ => cases h
  | error _ => exact h

/-- What is queued when a batch is over was queued or has failed. -/
theorem mem_queue_retryAll {failed : List Change} {c : Change}
    (h : c ∈ (ix.retryAll failed).1.queue.values) :
    c ∈ ix.queue.values ∨ ∃ d ∈ failed, c.origin = d.origin := by
  induction failed generalizing ix with
  | nil => exact .inl h
  | cons first rest ih =>
    rw [retryAll_cons] at h
    rcases ih h with hc | ⟨d, hd, hsame⟩
    · rw [retry_queue] at hc
      split at hc
      · rcases mem_values_insert hc with rfl | hc
        · exact .inr ⟨first, List.mem_cons_self, rfl⟩
        · exact .inl hc
      · exact .inl hc
    · exact .inr ⟨d, List.mem_cons_of_mem _ hd, hsame⟩

/-- What is queued keeps its place when a batch is over. -/
theorem get?_retryAll {path : String} {c : Change} (h : ix.queue.get? path = some c)
    (failed : List Change) : (ix.retryAll failed).1.queue.get? path = some c := by
  induction failed generalizing ix with
  | nil => exact h
  | cons first rest ih =>
    rw [retryAll_cons]
    refine ih ?_
    rw [retry_queue]
    split
    · next hback =>
      -- A change goes back only to a path that is free.
      have hne : first.path ≠ path := by
        rintro rfl
        rw [goesBack, OrderedMap.contains_eq_isSome, h] at hback
        cases hback
      rw [OrderedMap.get?_insert, if_neg hne, h]
    · exact h

end Queues

namespace Session

variable {s r t : Session} {a : Action}

/-- What a step notes before the index is handed anything: an arrival, the end of a lookup, or the
return of a call. -/
def noted (s : Session) : Action → List Event
  | .begin call => s.intake.arrivalEvents call
  | .resume id (.found result) =>
    match s.flights.find? (·.id = id) with
    | some ⟨_, _, .lookUp _, .lookingUp n kind path⟩ => s.intake.foundEvents n kind path result
    | _ => []
  | .resume id (.served result) =>
    match s.flights.find? (·.id = id) with
    | some ⟨_, _, .store _, .storing stores _⟩ => [.returned stores result]
    | some ⟨_, _, .remove _, .removing c _⟩ => [.returned [c] result]
    | _ => []
  | _ => []

/-- The work that is done in a step, and the call that goes on with it unless it has just begun. -/
inductive Doing (s : Session) : Action → Option Flight → Work → Prop
  | begun {call : Call} (hcall : ∀ ticket, call ≠ .batch ticket) :
      Doing s (.begin call) none (s.intake.begin call)
  | batch (ticket : Nat) : Doing s (.startBatch ticket) none (s.intake.begin (.batch ticket))
  | found {id : Nat} {f : Flight} (hf : s.flights.find? (·.id = id) = some f) {n : Nat}
      {kind : WatchKind} {path : String} (hwaiting : f.waiting = .lookingUp n kind path)
      (result : Except Failure Entry) :
      Doing s (.resume id (.found result)) (some f) (s.intake.lookedUp n kind path result)
  | stored {id : Nat} {f : Flight} (hf : s.flights.find? (·.id = id) = some f)
      {stores : List Change} {round : Round} (hwaiting : f.waiting = .storing stores round)
      (result : Except Failure Unit) :
      Doing s (.resume id (.served result)) (some f) (s.intake.stored stores round result)
  | removed {id : Nat} {f : Flight} (hf : s.flights.find? (·.id = id) = some f) {c : Change}
      {round : Round} (hwaiting : f.waiting = .removing c round) (result : Except Failure Unit) :
      Doing s (.resume id (.served result)) (some f) (s.intake.removed c round result)
  | joined {id : Nat} {f : Flight} (hf : s.flights.find? (·.id = id) = some f) {purpose : Purpose}
      (hwaiting : f.waiting = .joining purpose) :
      Doing s (.resume id .joined) (some f) (s.intake.flushNow purpose)

theorem Doing.found? {f : Flight} {work : Work} (h : s.Doing a (some f) work) :
    ∃ id, s.flights.find? (·.id = id) = some f := by
  cases h with
  | found hf _ _ => exact ⟨_, hf⟩
  | stored hf _ _ => exact ⟨_, hf⟩
  | removed hf _ _ => exact ⟨_, hf⟩
  | joined hf _ => exact ⟨_, hf⟩

/-- The calls that are under way beside one that goes on. -/
def others (s : Session) : Option Flight → List Flight
  | none => s.flights
  | some f => (s.without f).flights

/-- A step that does no work of a call. -/
structure Rests (s : Session) (a : Action) (t : Session) : Prop where
  noted : s.noted a = []
  flights : t.flights = s.flights
  trace : t.trace = s.trace
  latest : t.intake.latest = s.intake.latest

/-- A step that does work of a call. -/
structure Works (s : Session) (a : Action) (f : Option Flight) (work : Work) (t : Session) :
    Prop where
  doing : s.Doing a f work
  state : t.intake = work.state
  trace : t.trace = s.trace ++ s.noted a ++ beginning s.intake work.state ++ eventsAfter work.turn
  flights : ∃ id ticket, t.flights = s.others f ++ flightsAfter id ticket work.turn

theorem works_advance {f : Option Flight} {work : Work} (hdoing : s.Doing a f work)
    (hintake : r.intake = s.intake) (htrace : r.trace = s.trace ++ s.noted a)
    (hflights : r.flights = s.others f) (id : Nat) (ticket : Option Nat) :
    s.Works a f work (r.advance id ticket work) := by
  refine ⟨hdoing, advance_intake .., ?_, id, ticket, ?_⟩
  · rw [advance_trace, htrace, hintake]
  · rw [advance_flights, hflights]

theorem wake_cases {id : Nat} {f : Flight} (hf : s.flights.find? (·.id = id) = some f)
    (reply : Reply) : s.wake f reply = s ∧ s.noted (.resume id reply) = [] ∨
      ∃ work, s.Works (.resume id reply) (some f) work (s.wake f reply) := by
  obtain ⟨number, ticket, request, waiting⟩ := f
  unfold wake
  dsimp only
  split
  · refine .inr ⟨_, works_advance (.found hf rfl _) ?_ ?_ ?_ ..⟩
    · rfl
    · rw [noted, hf]
      rfl
    · rfl
  · refine .inr ⟨_, works_advance (.stored hf rfl _) ?_ ?_ ?_ ..⟩
    · rfl
    · rw [noted, hf]
      rfl
    · rfl
  · refine .inr ⟨_, works_advance (.removed hf rfl _) ?_ ?_ ?_ ..⟩
    · rfl
    · rw [noted, hf]
      rfl
    · rfl
  · split
    · exact .inl ⟨rfl, rfl⟩
    · refine .inr ⟨_, works_advance (.joined hf rfl) ?_ ?_ ?_ ..⟩
      · rfl
      · exact (List.append_nil _).symm
      · rfl
  · next hlookup hstore hremove _ =>
    refine .inl ⟨rfl, ?_⟩
    cases reply with
    | joined => rfl
    | found result =>
      rw [noted, hf]
      split
      · next heq =>
        cases heq
        exact (hlookup _ _ _ _ _ rfl rfl rfl).elim
      · rfl
    | served result =>
      rw [noted, hf]
      split
      · next heq =>
        cases heq
        exact (hstore _ _ _ _ rfl rfl rfl).elim
      · next heq =>
        cases heq
        exact (hremove _ _ _ _ rfl rfl rfl).elim
      · rfl

/-- What a step can do: nothing that concerns a call, or the next work of one. -/
theorem step_cases (s : Session) (a : Action) :
    s.Rests a (s.step a) ∨ ∃ f work, s.Works a f work (s.step a) := by
  have hrests (h : s.noted a = []) : s.Rests a s := ⟨h, rfl, rfl, rfl⟩
  have hbegin {call : Call} (hcall : ∀ ticket, call ≠ .batch ticket) :
      s.Works (.begin call) none (s.intake.begin call)
        ((s.note (s.intake.arrivalEvents call)).launch none (s.intake.begin call)) := by
    refine works_advance (.begun hcall) ?_ ?_ ?_ .. <;> rfl
  cases a with
  | begin call =>
    cases call with
    | batch ticket => exact .inl (hrests rfl)
    | change kind path => exact .inr ⟨_, _, hbegin (by simp)⟩
    | directoryChange kind path => exact .inr ⟨_, _, hbegin (by simp)⟩
    | flush => exact .inr ⟨_, _, hbegin (by simp)⟩
    | destroy => exact .inr ⟨_, _, hbegin (by simp)⟩
  | quiet ticket =>
    refine .inl ?_
    simp only [step]
    split
    · exact ⟨rfl, change_flights .., change_trace .., by rw [change_intake]; rfl⟩
    · exact hrests rfl
  | gather ticket =>
    refine .inl ?_
    simp only [step]
    split
    · refine ⟨rfl, change_flights .., change_trace .., ?_⟩
      rw [change_intake]
      unfold Intake.gathered
      dsimp only
      split <;> rfl
    · exact hrests rfl
  | startBatch ticket =>
    simp only [step]
    split
    · refine .inr ⟨_, _, works_advance (.batch ticket) ?_ ?_ ?_ ..⟩
      · rfl
      · exact (List.append_nil _).symm
      · rfl
    · exact .inl (hrests rfl)
  | resume id reply =>
    simp only [step]
    split
    · next f hf =>
      rcases wake_cases hf reply with ⟨hsame, hnoted⟩ | hworks
      · rw [hsame]
        exact .inl (hrests hnoted)
      · exact .inr ⟨some f, hworks⟩
    · next hnone =>
      refine .inl (hrests ?_)
      cases reply with
      | joined => rfl
      | _ => rw [noted, hnone]

theorem asking_of_doing (hasks : ∀ f ∈ s.flights, f.waiting.Asks f.request) {f : Option Flight}
    {work : Work} (h : s.Doing a f work) : Asking work := by
  cases h with
  | begun hcall => exact asking_begin ..
  | batch ticket => exact asking_begin ..
  | found hf hwaiting result => exact asking_lookedUp ..
  | stored hf hwaiting result =>
    have hwaits := hasks _ (List.mem_of_find?_eq_some hf)
    rw [hwaiting] at hwaits
    exact asking_stored _ _ hwaits.2.2 result
  | removed hf hwaiting result =>
    have hwaits := hasks _ (List.mem_of_find?_eq_some hf)
    rw [hwaiting] at hwaits
    exact asking_removed _ _ (fun c hc => hwaits.2 c (List.mem_cons_of_mem _ hc)) result
  | joined hf hwaiting => exact ⟨(asking_process ..).asks⟩

theorem others_subset (s : Session) (f : Option Flight) : s.others f ⊆ s.flights := by
  cases f with
  | none => exact List.Subset.refl _
  | some f => exact List.eraseP_subset

/-- Every call asks for what it waits for. -/
theorem asks_step (h : ∀ f ∈ s.flights, f.waiting.Asks f.request) (a : Action) :
    ∀ f ∈ (s.step a).flights, f.waiting.Asks f.request := by
  intro f hf
  rcases s.step_cases a with hrests | ⟨g, work, hworks⟩
  · rw [hrests.flights] at hf
    exact h f hf
  · obtain ⟨id, ticket, hflights⟩ := hworks.flights
    rw [hflights] at hf
    rcases List.mem_append.mp hf with hf | hf
    · exact h f (s.others_subset g hf)
    · unfold flightsAfter at hf
      split at hf
      · cases hf
      · next request waiting hturn =>
        rw [List.mem_singleton.mp hf]
        exact (asking_of_doing h hworks.doing).asks request waiting hturn

/-- What is added to a trace by the work itself is about handing over. -/
theorem begun_or_handed {ix ix' : Intake} {turn : Turn Request Waiting Unit} {e : Event}
    (h : e ∈ beginning ix ix' ++ eventsAfter turn) : e = .begun ∨ ∃ calls, e = .handed calls := by
  rcases List.mem_append.mp h with h | h
  · unfold beginning at h
    split at h
    · exact .inl (List.mem_singleton.mp h)
    · cases h
  · cases turn with
    | done result => cases h
    | ask request waiting =>
      cases waiting with
      | storing stores round => exact .inr ⟨stores, List.mem_singleton.mp h⟩
      | removing c round => exact .inr ⟨[c], List.mem_singleton.mp h⟩
      | lookingUp n kind path => cases h
      | joining purpose => cases h

/-- What a step adds to the trace is noted by it, or is about handing over. -/
theorem step_trace (s : Session) (a : Action) : ∃ new, (s.step a).trace = s.trace ++ new ∧
    ∀ e ∈ new, e ∈ s.noted a ∨ e = .begun ∨ ∃ calls, e = .handed calls := by
  rcases s.step_cases a with hrests | ⟨f, work, hworks⟩
  · exact ⟨[], hrests.trace.trans (List.append_nil _).symm, fun _ he => absurd he List.not_mem_nil⟩
  · refine ⟨s.noted a ++ (beginning s.intake work.state ++ eventsAfter work.turn), ?_, ?_⟩
    · rw [hworks.trace, List.append_assoc, List.append_assoc]
    · exact fun e he => (List.mem_append.mp he).imp_right begun_or_handed

theorem queued_noted {c : Change} (h : .queued c ∈ (s.step a).trace) :
    .queued c ∈ s.trace ∨ .queued c ∈ s.noted a := by
  obtain ⟨new, htrace, hnew⟩ := s.step_trace a
  rw [htrace] at h
  rcases List.mem_append.mp h with h | h
  · exact .inl h
  · rcases hnew _ h with hnoted | hbegun | ⟨calls, hhanded⟩
    · exact .inr hnoted
    · cases hbegun
    · cases hhanded

theorem returned_ne_queued (calls : List Change) (result : Except Failure Unit) (q : Change) :
    Event.returned calls result ≠ .queued q := by
  cases result <;> simp [Event.returned]

/-- What is noted as queued stands in the queue. -/
theorem queue_of_noted (horder : s.Ordered) (ha : a ≠ .begin .destroy) {c : Change}
    (hc : .queued c ∈ s.noted a) : (s.step a).intake.queue.get? c.path = some c := by
  rcases s.step_cases a with hrests | ⟨f, work, hworks⟩
  · rw [hrests.noted] at hc
    cases hc
  · have hnew {new : List Event} (h : (s.step a).trace = s.trace ++ new) : .queued c ∈ new := by
      rw [hworks.trace, List.append_assoc, List.append_assoc] at h
      rw [← List.append_cancel_left h]
      exact List.mem_append_left _ hc
    have harrived {arrivals : List Event}
        (h : ∀ e ∈ arrivals, ∃ n kind path, e = .arrived n kind path) :
        .queued c ∉ arrivals := by
      intro hmem
      obtain ⟨n, kind, path, heq⟩ := h _ hmem
      cases heq
    cases (progress_step horder ha).moves with
    | nothing arrivals hall _ _ _ htrace => exact absurd (hnew htrace) (harrived hall)
    | queued q arrivals hall _ _ hq _ _ htrace =>
      rw [List.append_assoc] at htrace
      rcases List.mem_append.mp (hnew htrace) with hmem | hmem
      · exact absurd hmem (harrived hall)
      · obtain rfl : c = q := Event.queued.inj (List.mem_singleton.mp hmem)
        rw [hq, OrderedMap.get?_insert, if_pos rfl]
    | taken calls rest _ _ _ _ _ htrace =>
      rcases List.mem_pair.mp (hnew htrace) with hbegun | hhanded
      · cases hbegun
      · cases hhanded
    | returned g result _ _ _ _ _ _ _ htrace =>
      rcases List.mem_pair.mp (hnew htrace) with hreturned | hhanded
      · exact absurd hreturned.symm (returned_ne_queued _ _ _)
      · cases hhanded
    | ended g result _ _ _ _ _ htrace =>
      exact absurd (List.mem_singleton.mp (hnew htrace)).symm (returned_ne_queued _ _ _)

/-- A call that waits goes on waiting unless the step goes on with it. -/
theorem mem_flights_step {f : Flight} (hf : f ∈ s.flights) (a : Action) :
    f ∈ (s.step a).flights ∨ ∃ work, s.Works a (some f) work (s.step a) := by
  rcases s.step_cases a with hrests | ⟨g, work, hworks⟩
  · rw [hrests.flights]
    exact .inl hf
  · obtain ⟨id, ticket, hflights⟩ := hworks.flights
    rw [hflights]
    cases g with
    | none => exact .inl (List.mem_append_left _ hf)
    | some g =>
      by_cases hsame : f = g
      · subst hsame
        exact .inr ⟨work, hworks⟩
      · refine .inl (List.mem_append_left _ ?_)
        obtain ⟨i, hg⟩ := hworks.doing.found?
        obtain ⟨l₁, l₂, hsplit, hrest⟩ := eraseP_of_find? hg
        change f ∈ s.flights.eraseP _
        rw [hrest]
        rw [hsplit] at hf
        rcases List.mem_append.mp hf with hf | hf
        · exact List.mem_append_left _ hf
        · exact List.mem_append_right _ ((List.mem_cons.mp hf).resolve_left hsame)

/-- A change that an intake holds was held before, though it may have been tried since, or the step
notes that it is queued. -/
theorem held_step (horder : s.Ordered) (ha : a ≠ .begin .destroy) {c : Change}
    (hc : c ∈ (s.step a).held) :
    (∃ d ∈ s.held, c.origin = d.origin) ∨ .queued c ∈ s.noted a := by
  have hmoves := (progress_step horder ha).moves
  have hqueue {d : Change} (hd : d ∈ s.intake.queue.values) (hsame : c.origin = d.origin) :
      (∃ d ∈ s.held, c.origin = d.origin) ∨ .queued c ∈ s.noted a :=
    .inl ⟨d, List.mem_append_left _ hd, hsame⟩
  have hstage {g : Stage} {d : Change} (hg : g ∈ s.stages) (hd : d ∈ g.all)
      (hsame : c.origin = d.origin) :
      (∃ d ∈ s.held, c.origin = d.origin) ∨ .queued c ∈ s.noted a :=
    .inl ⟨d, List.mem_append_right _ (List.mem_flatMap.mpr ⟨g, hg, hd⟩), hsame⟩
  rcases List.mem_append.mp hc with hc | hc
  · cases hmoves with
    | nothing arrivals _ hq _ _ _ =>
      rw [hq] at hc
      exact hqueue hc rfl
    | queued q arrivals _ _ hnewer hq _ _ htrace =>
      rw [hq] at hc
      rcases mem_values_insert hc with rfl | hc
      · have hmem : .queued c ∈ (s.step a).trace := by
          rw [htrace]
          exact List.mem_append_right _ List.mem_cons_self
        rcases queued_noted hmem with hold | hnew
        · exact absurd (hnewer c hold rfl) (Nat.lt_irrefl _)
        · exact .inr hnew
      · exact hqueue hc rfl
    | taken calls rest _ hq _ _ _ _ =>
      rw [hq] at hc
      cases hc
    | returned g result first rest _ hq _ _ _ _ =>
      rw [hq] at hc
      exact hqueue hc rfl
    | ended g result _ hq _ hg _ _ =>
      rw [hq] at hc
      rcases mem_queue_retryAll hc with hc | ⟨d, hd, hsame⟩
      · exact hqueue hc rfl
      · refine hstage (by rw [hg]; exact List.mem_cons_self) ?_ hsame
        rcases List.mem_append.mp hd with hd | hd
        · exact List.mem_append_right _ hd
        · exact List.mem_append_left _ (List.mem_append_right _ (mem_of_failing hd))
  · obtain ⟨g', hg', hc⟩ := List.mem_flatMap.mp hc
    cases hmoves with
    | nothing arrivals _ _ _ hg _ =>
      rw [hg] at hg'
      exact hstage hg' hc rfl
    | queued q arrivals _ _ _ _ _ hg _ =>
      rw [hg] at hg'
      exact hstage hg' hc rfl
    | taken calls rest hall _ _ _ hg _ =>
      rw [hg] at hg'
      rw [List.mem_singleton.mp hg'] at hc
      refine hqueue (hall.mem_iff.mp ?_) rfl
      simpa [Stage.all, or_comm] using hc
    | returned g result first rest hwaiting _ _ hg ht _ =>
      rw [ht] at hg'
      rw [List.mem_singleton.mp hg'] at hc
      refine hstage (by rw [hg]; exact List.mem_cons_self) ?_ rfl
      simp only [Stage.all, hwaiting, List.mem_append, List.mem_cons, List.not_mem_nil, or_false]
        at hc ⊢
      rcases hc with (hc | hc) | hc | hc
      · exact .inl (.inl (.inr hc))
      · exact .inl (.inl (.inl hc))
      · exact .inr hc
      · exact .inl (.inr (mem_of_failing hc))
    | ended g result _ _ _ _ ht _ =>
      rw [ht] at hg'
      cases hg'

/-- A change that is still to be handed over. -/
def Awaits (s : Session) (c : Change) : Prop :=
  s.intake.queue.get? c.path = some c ∨ ∃ g ∈ s.stages, c ∈ g.waiting

/-- Whether an action is the return of a call that the index was asked for. -/
def Returning : Action → Prop
  | .resume _ (.served _) => True
  | _ => False

/-- A call comes back only where it returns. -/
theorem returning_of_trace {calls : List Change} {result : Except Failure Unit} {rest : List Event}
    (h : (s.step a).trace = s.trace ++ .returned calls result :: rest) : Returning a := by
  obtain ⟨new, htrace, hnew⟩ := s.step_trace a
  obtain rfl : .returned calls result :: rest = new :=
    List.append_cancel_left (h.symm.trans htrace)
  have hhead := hnew _ List.mem_cons_self
  rcases hhead with hnoted | hbegun | ⟨_, hhanded⟩
  · cases a with
    | begin call =>
      rw [noted, arrivalEvents] at hnoted
      split at hnoted
      · rcases List.mem_cons.mp hnoted with harrived | hnoted
        · cases result <;> cases harrived
        · split at hnoted
          · exact absurd (List.mem_singleton.mp hnoted) (returned_ne_queued _ _ _)
          · cases hnoted
      · cases hnoted
    | resume id reply =>
      cases reply with
      | found found =>
        rw [noted] at hnoted
        split at hnoted
        · cases found with
          | ok e =>
            rw [foundEvents] at hnoted
            split at hnoted
            · exact absurd (List.mem_singleton.mp hnoted) (returned_ne_queued _ _ _)
            · cases hnoted
          | error f => cases hnoted
        · cases hnoted
      | served served => trivial
      | joined => cases hnoted
    | _ => cases hnoted
  · cases result <;> cases hbegun
  · cases result <;> cases hhanded

/-- What is still to be handed over was queued. -/
theorem queued_of_awaits (horder : s.Ordered) {c : Change} (hc : s.Awaits c) :
    ∃ q, .queued q ∈ s.trace ∧ q.path = c.path ∧ q.arrival = c.arrival := by
  obtain ⟨stage, hstages, hin⟩ := horder.order
  have hbefore {c : Change} (h : QueuedBefore s.trace s.trace.length c) :
      ∃ q, .queued q ∈ s.trace ∧ q.path = c.path ∧ q.arrival = c.arrival := by
    obtain ⟨i, q, -, hq, hpath, harrival, -⟩ := h
    exact ⟨q, List.mem_of_getElem? hq, hpath, harrival⟩
  rcases hc with hc | ⟨g, hg, hc⟩
  · exact hbefore (hin.waits _ _ hc).2.1
  · rw [hstages, Option.mem_toList] at hg
    obtain ⟨b, happlying⟩ := hin.applying g hg
    exact hbefore (happlying.queued c (List.mem_append_left _ (List.mem_append_left _ hc)))

/-- A change that is to be handed over still is, or is handed over in the step, or a later one of
its path is queued. -/
theorem awaits_step (horder : s.Ordered) (ha : a ≠ .begin .destroy) {c : Change}
    (hc : s.Awaits c) : (s.step a).Awaits c ∨
      ((s.stages = [] ∨ Returning a) ∧ ∃ g ∈ (s.step a).stages, c ∈ g.current) ∨
      ∃ q, .queued q ∈ (s.step a).trace ∧ q.path = c.path ∧ c.arrival < q.arrival := by
  cases (progress_step horder ha).moves with
  | nothing arrivals _ hq _ hg _ =>
    refine .inl ?_
    rw [Awaits, hq, hg]
    exact hc
  | queued q arrivals _ _ hnewer hq _ hg htrace =>
    rcases hc with hqueue | hstage
    · by_cases hpath : q.path = c.path
      · obtain ⟨old, hold, holdpath, harrival⟩ := queued_of_awaits horder (.inl hqueue)
        refine .inr (.inr ⟨q, ?_, hpath, ?_⟩)
        · rw [htrace]
          exact List.mem_append_right _ List.mem_cons_self
        · rw [← harrival]
          exact hnewer old hold (holdpath.trans hpath.symm)
      · refine .inl (.inl ?_)
        rw [hq, OrderedMap.get?_insert, if_neg hpath]
        exact hqueue
    · rw [← hg] at hstage
      exact .inl (.inr hstage)
  | taken calls rest hall _ _ hnone hg _ =>
    rcases hc with hqueue | ⟨g, hmem, -⟩
    · have hvalue : c ∈ calls ++ rest :=
        hall.mem_iff.mpr (OrderedMap.mem_values_iff.mpr ⟨_, hqueue⟩)
      rw [Awaits, hg]
      rcases List.mem_append.mp hvalue with hcalls | hrest
      · exact .inr (.inl ⟨.inl hnone, _, List.mem_cons_self, hcalls⟩)
      · exact .inl (.inr ⟨_, List.mem_cons_self, hrest⟩)
    · rw [hnone] at hmem
      cases hmem
  | returned g result first rest hwaiting hq _ hold hg htrace =>
    rcases hc with hqueue | ⟨g', hmem, hc⟩
    · refine .inl (.inl ?_)
      rw [hq]
      exact hqueue
    · rw [hold] at hmem
      rw [List.mem_singleton.mp hmem, hwaiting] at hc
      rw [Awaits, hg]
      rcases List.mem_cons.mp hc with rfl | hc
      · exact .inr (.inl ⟨.inr (returning_of_trace htrace), _, List.mem_cons_self,
          List.mem_cons_self⟩)
      · exact .inl (.inr ⟨_, List.mem_cons_self, hc⟩)
  | ended g result hwaiting hq _ hold _ _ =>
    rcases hc with hqueue | ⟨g', hmem, hc⟩
    · refine .inl (.inl ?_)
      rw [hq]
      exact get?_retryAll hqueue _
    · rw [hold] at hmem
      rw [List.mem_singleton.mp hmem, hwaiting] at hc
      cases hc

/-- A batch that is being applied stays as it is, unless a call of it returns. -/
theorem stages_step (horder : s.Ordered) (ha : a ≠ .begin .destroy) (hreturn : ¬Returning a) :
    (s.step a).stages = s.stages ∨ s.stages = [] := by
  cases (progress_step horder ha).moves with
  | nothing _ _ _ _ hg _ => exact .inl hg
  | queued _ _ _ _ _ _ _ hg _ => exact .inl hg
  | taken _ _ _ _ _ hnone _ _ => exact .inr hnone
  | returned _ _ _ _ _ _ _ _ _ htrace => exact absurd (returning_of_trace htrace) hreturn
  | ended _ _ _ _ _ _ _ htrace => exact absurd (returning_of_trace htrace) hreturn

end Session

end LiveIndex.Intake
