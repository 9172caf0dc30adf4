import LiveIndex.Proofs.Watch.Debounce

/-! What the calls of a watch answer. A start that fails leaves the watch halted, and a watch that
has been halted does not run again until it is started once more. -/

namespace LiveIndex.Watch

/-- What a call answers whose work is done. -/
def answerOf (id : Nat) (work : Work) : Option (Nat × Except Failure (Option Bool)) :=
  match work.turn with
  | .done result => some (id, result)
  | .ask _ _ => none

theorem runs_of_append {a b : List Item} (hb : ∀ id, .starting id ∉ b)
    (h : runs (a ++ b) = true) : runs a = true := by
  induction b using List.reverseRecOn with
  | nil => rwa [List.append_nil] at h
  | append_singleton b i ih =>
    have hbefore : ∀ id, .starting id ∉ b := fun id hid => hb id (List.mem_append_left _ hid)
    rw [← List.append_assoc, runs_concat] at h
    cases i with
    | starting id => exact absurd (List.mem_append_right _ (List.mem_singleton_self _)) (hb id)
    | stopping => cases h
    | failing => cases h
    | _ => exact ih hbefore h

theorem fatal_running (w : Watch) (f : Failure) : (w.fatal f).1.running = false := by
  have htold := (aside_emit w.halt.1 .error (.failure f)).running
  unfold Watch.fatal
  dsimp only
  split
  · exact (aside_emit _ .stopped .nothing).running.trans htold
  · exact htold

namespace Session

variable {s : Session} {f : Flight} {reply : Reply} {work : Work} {id : Nat}

/-- The work that a call goes on with, if what has come is what it waits for. -/
def workOf (s : Session) (f : Flight) (reply : Reply) : Option Work :=
  match f.request, f.waiting, reply with
  | .walk _, .learning, .walked _ result => some (s.watch.learned result)
  | .walk _, .expanding, .walked now result => some (s.watch.expanded now result)
  | .startBackend _, .starting initial, .served now result =>
    some (s.watch.started now initial result)
  | .stopBackend, .stopping wasRunning, .served _ (.ok ()) => some (s.watch.stopped wasRunning)
  | .stopBackend, .stopping _, .served _ (.error failure) => some (.failed s.watch [] failure)
  | .jobs tickets, .settling, .joined =>
    if tickets.any s.isRunning then none else some (s.watch.settle [])
  | _, _, _ => none

/-- The call that answers in a step, and what it answers. -/
def answered? (s : Session) : Action → Option (Nat × Except Failure (Option Bool))
  | .start => answerOf s.nextId (s.watch.begin .start)
  | .stop => answerOf s.nextId (s.watch.begin .stop)
  | .resume id reply =>
    (s.flights.find? (·.id = id)).bind fun f => (s.workOf f reply).bind (answerOf f.id)
  | _ => none

/-- A call goes on with its work, or it goes on waiting. -/
theorem wake_workOf (s : Session) (f : Flight) (reply : Reply) :
    (∃ work, s.workOf f reply = some work ∧ ∃ (t : Session) (items : List Item),
      t.flights = (s.without f).flights ∧ t.nextId = s.nextId ∧
        s.wake f reply = t.advance f.id f.ticket items work) ∨
      s.workOf f reply = none ∧ s.wake f reply = s := by
  obtain ⟨number, ticket, request, waiting⟩ := f
  -- Only one of the two matches is split in each case; the other one computes after that.
  cases hwork : s.workOf ⟨number, ticket, request, waiting⟩ reply with
  | some work =>
    refine .inl ⟨work, rfl, ?_⟩
    unfold workOf at hwork
    dsimp only at hwork
    split at hwork
    · cases hwork
      exact ⟨s.without _, [], rfl, rfl, rfl⟩
    · cases hwork
      exact ⟨s.without _, _, rfl, rfl, rfl⟩
    · cases hwork
      exact ⟨_, _, connect_flights .., connect_nextId .., rfl⟩
    · cases hwork
      exact ⟨s.without _, [], rfl, rfl, rfl⟩
    · cases hwork
      exact ⟨s.without _, [], rfl, rfl, rfl⟩
    · next tickets =>
      split at hwork
      · cases hwork
      · next hover =>
        cases hwork
        exact ⟨s.without _, [], rfl, rfl, if_neg hover⟩
    · cases hwork
  | none =>
    refine .inr ⟨rfl, ?_⟩
    unfold workOf at hwork
    unfold wake
    dsimp only at hwork ⊢
    split
    · cases hwork
    · cases hwork
    · cases hwork
    · cases hwork
    · cases hwork
    · next tickets =>
      refine if_pos (Classical.byContradiction fun hover => ?_)
      cases (if_neg hover).symm.trans hwork
    · rfl

theorem advance_watch (s : Session) (id : Nat) (ticket : Option Nat) (items : List Item)
    (work : Work) : (s.advance id ticket items work).watch = work.state := by
  unfold advance
  dsimp only
  split
  · exact change_watch ..
  · exact change_watch ..

theorem advance_nextId (s : Session) (id : Nat) (ticket : Option Nat) (items : List Item)
    (work : Work) : (s.advance id ticket items work).nextId = s.nextId := by
  unfold advance
  dsimp only
  split
  · exact change_nextId ..
  · exact change_nextId ..

/-- A call waits after a step that waited before it, or whose work went on in it. -/
theorem mem_advance {ticket : Option Nat} {items : List Item} {g : Flight}
    (h : g ∈ (s.advance id ticket items work).flights) :
    g ∈ s.flights ∨ g.id = id ∧ work.turn = .ask g.request g.waiting := by
  unfold advance at h
  dsimp only at h
  split at h
  · exact .inl ((change_flights (s.note items) ..).subst h)
  · next request waiting hturn =>
    rcases List.mem_append.mp h with h | h
    · exact .inl ((change_flights (s.note items) ..).subst h)
    · rw [List.mem_singleton.mp h]
      exact .inr ⟨rfl, hturn⟩

/-- Only a start sets a watch running. -/
theorem running_step {debounce : Int} (h : s.Sound debounce) {a : Action} (ha : a ≠ .start)
    (hrunning : (s.step a).watch.running = true) : s.watch.running = true := by
  obtain ⟨new, htrace, hnew⟩ := s.step_trace a
  rw [(h.step a).tracks.running, htrace] at hrunning
  rw [h.tracks.running]
  exact runs_of_append (fun id hid => ha (hnew _ hid).1) hrunning

theorem stop_halts (s : Session) : (s.step .stop).watch.running = false :=
  congrArg Watch.running (advance_watch ..)

/-- A start goes on as a start, and either fails, or says that the watch has started or that it has
been halted. -/
theorem start_goes_on (hstart : f.waiting.isStart = true) (hwork : s.workOf f reply = some work) :
    (∀ request waiting, work.turn = .ask request waiting → waiting.isStart = true) ∧
      ∀ result, work.turn = .done result → (∃ failure, result = .error failure) ∨
        result = .ok (some true) ∨ result = .ok (some false) ∧ work.state.running = false := by
  unfold workOf at hwork
  split at hwork
  · next path now result _ hwaiting =>
    cases hwork
    cases result with
    | ok initial =>
      refine ⟨fun request waiting hturn => ?_, by rintro _ ⟨⟩⟩
      cases hturn
      rfl
    | error failure =>
      refine ⟨by rintro _ _ ⟨⟩, fun result hturn => ?_⟩
      cases hturn
      exact .inl ⟨failure, rfl⟩
  · next hwaiting =>
    rw [hwaiting] at hstart
    cases hstart
  · next paths initial now result _ hwaiting =>
    cases hwork
    cases result with
    | ok =>
      refine ⟨by rintro _ _ ⟨⟩, fun result hturn => ?_⟩
      cases hturn
      exact .inr (.inl rfl)
    | error failure =>
      refine ⟨by rintro _ _ ⟨⟩, fun result hturn => ?_⟩
      cases hturn
      exact .inr (.inr ⟨rfl, fatal_running ..⟩)
  · next hwaiting =>
    rw [hwaiting] at hstart
    cases hstart
  · next hwaiting =>
    rw [hwaiting] at hstart
    cases hstart
  · next hwaiting =>
    rw [hwaiting] at hstart
    cases hstart
  · cases hwork

/-- The call with a number is a start, if it still waits. -/
structure Starts (s : Session) (id : Nat) : Prop where
  known : id < s.nextId
  waits : ∀ f ∈ s.flights, f.id = id → f.waiting.isStart = true

theorem Starts.aside (h : s.Starts id) {t : Session} (hflights : t.flights = s.flights)
    (hnext : t.nextId = s.nextId) : t.Starts id :=
  ⟨hnext.symm ▸ h.known, hflights.symm ▸ h.waits⟩

theorem Starts.launch (h : s.Starts id) (ticket : Option Nat) (items : List Item) (work : Work) :
    (s.launch ticket items work).Starts id := by
  refine ⟨?_, fun f hf hid => ?_⟩
  · rw [Session.launch, advance_nextId]
    exact h.known.trans (Nat.lt_succ_self _)
  · rcases mem_advance hf with hf | ⟨hsame, -⟩
    · exact h.waits f hf hid
    · exact absurd (hid.symm.trans hsame) h.known.ne

theorem Starts.wake (h : s.Starts id) (hf : f ∈ s.flights) (reply : Reply) :
    (s.wake f reply).Starts id := by
  rcases s.wake_workOf f reply with ⟨work, hwork, t, items, hflights, hnext, hwake⟩ | ⟨-, hwake⟩
  · rw [hwake]
    refine ⟨?_, fun g hg hid => ?_⟩
    · rw [advance_nextId, hnext]
      exact h.known
    · rcases mem_advance hg with hg | ⟨hsame, hturn⟩
      · rw [hflights] at hg
        exact h.waits g (List.mem_of_mem_eraseP hg) hid
      · have hstart := h.waits f hf (hsame.symm.trans hid)
        exact (start_goes_on hstart hwork).1 _ _ hturn
  · rwa [hwake]

theorem Starts.step (h : s.Starts id) (a : Action) : (s.step a).Starts id := by
  cases a with
  | wait | on | off | endRun => exact h.aside rfl rfl
  | addPath | report => exact h.aside (change_flights ..) (change_nextId ..)
  | unwatchPath | fail => exact h.aside (change_flights ..) (change_nextId ..)
  | start => exact h.launch ..
  | stop => exact h.launch ..
  | expand ticket =>
    rw [Session.step]
    split
    · have hexpanding : Starts { s with due := s.due.eraseP (·.1 = ticket) } id := h.aside rfl rfl
      exact hexpanding.launch ..
    · exact h
  | endJob ticket result =>
    rw [Session.step]
    split
    · exact h.aside rfl rfl
    · exact h
  | noteOver ticket =>
    rw [Session.step]
    split
    · exact h.aside (change_flights ..) (change_nextId ..)
    · exact h
  | ring ticket =>
    rw [Session.step]
    split
    · split
      · exact h.aside (change_flights ..) (change_nextId ..)
      · exact h
    · exact h
  | resume number reply =>
    rw [Session.step]
    split
    · next f hfind => exact h.wake (List.mem_of_find?_eq_some hfind) reply
    · exact h

/-- What a start has answered. -/
theorem Starts.answered (h : s.Starts id) {a : Action} {result : Except Failure (Option Bool)}
    (hanswer : s.answered? a = some (id, result)) : (∃ failure, result = .error failure) ∨
      result = .ok (some true) ∨
        result = .ok (some false) ∧ (s.step a).watch.running = false := by
  have hnew (work : Work) (hnow : answerOf s.nextId work = some (id, result)) :
      id = s.nextId := by
    unfold answerOf at hnow
    split at hnow <;> cases hnow
    rfl
  -- A call that is over at once is a new one.
  cases a with
  | start => exact absurd (hnew (s.watch.begin .start) hanswer) h.known.ne
  | stop => exact absurd (hnew (s.watch.begin .stop) hanswer) h.known.ne
  | resume number reply =>
    obtain ⟨f, hfind, hanswer⟩ := Option.bind_eq_some_iff.mp hanswer
    obtain ⟨work, hwork, hanswer⟩ := Option.bind_eq_some_iff.mp hanswer
    unfold answerOf at hanswer
    split at hanswer
    · next result' hturn =>
      cases hanswer
      have hstart := h.waits f (List.mem_of_find?_eq_some hfind) rfl
      have hstep : (s.step (.resume number reply)).watch = work.state := by
        rw [Session.step, hfind]
        rcases s.wake_workOf f reply with ⟨work', hsame, t, items, -, -, hwake⟩ | ⟨hnone, -⟩
        · cases hsame.symm.trans hwork
          exact (congrArg Session.watch hwake).trans (advance_watch ..)
        · cases hnone.symm.trans hwork
      rw [hstep]
      exact (start_goes_on hstart hwork).2 _ hturn
    · cases hanswer
  | wait | on | off | endRun | addPath | report | unwatchPath | fail => cases hanswer
  | expand | endJob | noteOver | ring => cases hanswer

end Session

end LiveIndex.Watch
