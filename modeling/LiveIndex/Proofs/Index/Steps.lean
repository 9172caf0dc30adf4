import LiveIndex.Proofs.Index.Saving

/-! What can happen to the calls of an index. Each step comes to one of three cases: the calls stay
as they are, or one begins, or one that waits goes on, be it with the lock, with the end of its
write, or with neither. -/

namespace LiveIndex.Index

/-- Whether a call waits for the lock. -/
def Flight.awaitsLock (f : Flight) : Bool :=
  match f.request, f.waiting with
  | .lock, .queued _ => true
  | _, _ => false

/-- Whether a call has the disk write the index, and so has the lock. -/
def Flight.writes (f : Flight) : Bool :=
  match f.request, f.waiting with
  | .write .., .writing _ => true
  | _, _ => false

theorem Flight.eq_of_writes {f : Flight} (h : f.writes = true) : ∃ path snapshot after,
    f.request = .write path snapshot ∧ f.waiting = .writing after := by
  rw [Flight.writes] at h
  split at h
  · next path snapshot after hrequest hwaiting => exact ⟨path, snapshot, after, hrequest, hwaiting⟩
  · cases h

theorem Flight.eq_of_awaitsLock {f : Flight} (h : f.awaitsLock = true) :
    ∃ after, f.request = .lock ∧ f.waiting = .queued after := by
  rw [Flight.awaitsLock] at h
  split at h
  · next after hrequest hwaiting => exact ⟨after, hrequest, hwaiting⟩
  · cases h

/-- The lock when a stretch of work is over. -/
def lockAfter (work : Work) : Lock :=
  work.effects.foldl (fun l e => e.onLock l) work.state.lock

section Locks

variable {s : Index} {after : AfterSave} {effects : List Effect}

theorem lockAfter_after (hquiet : ∀ e ∈ effects, e ≠ .unlock) (work : Work) :
    lockAfter (work.after effects) = lockAfter work := by
  rw [lockAfter, Stretch.after, List.foldl_append, foldl_onLock hquiet]
  rfl

theorem lockAfter_beginSave (s : Index) (after : AfterSave) :
    lockAfter (s.beginSave after) = s.lock := by
  rw [beginSave]
  split
  · rw [afterSave_eq]
    exact left_lock s after
  · rfl

theorem lockAfter_startEmpty (s : Index) (initial : Bool) (hquiet : ∀ e ∈ effects, e ≠ .unlock) :
    lockAfter (s.startEmpty initial effects) = s.lock := by
  unfold startEmpty
  split <;> exact foldl_onLock hquiet _

theorem lockAfter_beginLoad (s : Index) (initial : Bool) :
    lockAfter (s.beginLoad initial) = s.lock := by
  unfold beginLoad
  split
  · exact s.lockAfter_startEmpty initial (fun _ he => absurd he List.not_mem_nil)
  · rfl

theorem lockAfter_loaded (s : Index) (initial : Bool) (result : Except Failure Snapshot) :
    lockAfter (s.loaded initial result) = s.lock := by
  have hlogged (level : Level) (text : String) : ∀ e ∈ [Effect.log level text], e ≠ .unlock := by
    intro e he
    rw [List.mem_singleton.mp he]
    exact nofun
  unfold loaded
  split
  · next snapshot =>
    have hquiet : ∀ e ∈ (s.adopt snapshot).disagreement snapshot, e ≠ .unlock := by
      unfold disagreement
      split
      · exact fun _ he => absurd he List.not_mem_nil
      · exact hlogged _ _
    exact foldl_onLock hquiet s.lock
  · exact s.lockAfter_startEmpty initial (fun _ he => absurd he List.not_mem_nil)
  · split
    · exact s.lockAfter_startEmpty initial (hlogged _ _)
    · exact s.lockAfter_startEmpty initial (hlogged _ _)
    · rfl

theorem lockAfter_publish (s : Index) (now : Int) (changes : List Notice) (after : AfterSave) :
    lockAfter (s.publish now changes after) = s.lock :=
  (lockAfter_after ((s.bump now).deliveries_quiet changes) _).trans
    ((s.bump now).lockAfter_beginSave after)

theorem disarms_quiet (timer : Option Nat) :
    ∀ e ∈ timer.toList.map Effect.disarm, e ≠ .unlock := by
  intro e he
  obtain ⟨ticket, -, rfl⟩ := List.mem_map.mp he
  exact nofun

/-- No call takes the lock or gives it back when it begins. -/
theorem lockAfter_begin (s : Index) (now : Int) (call : Call) :
    lockAfter (s.begin now call) = s.lock := by
  cases call with
  | prepare root path => exact lockAfter_beginLoad _ true
  | load => exact s.lockAfter_beginLoad false
  | save => exact s.lockAfter_beginSave .answer
  | batch entries =>
    have hplace := (samePlace_upsertAll s entries).lock
    simp only [begin, beginBatch]
    split
    · exact hplace
    · exact (lockAfter_publish ..).trans hplace
  | remove path =>
    have hplace := (samePlace_removeFamily s path).lock
    simp only [begin, beginRemove]
    split
    · exact hplace
    · exact (lockAfter_publish ..).trans hplace
  | destroy =>
    simp only [begin, beginDestroy]
    split
    · exact (lockAfter_after (disarms_quiet _) _).trans (lockAfter_beginSave _ _)
    · exact foldl_onLock (disarms_quiet _) _

/-- A single entry leaves the lock alone, whatever is scheduled and told of it. -/
theorem lock_add (s : Index) (now : Int) (timed : Bool) (e : Entry) :
    (s.add now timed e).2.foldl (fun l e => e.onLock l) (s.add now timed e).1.lock = s.lock := by
  have hplace := (samePlace_upsert s e).lock
  have hquiet : ∀ e' ∈ (s.add now timed e).2, e' ≠ .unlock := by
    intro e' he'
    rw [add] at he'
    dsimp only at he'
    split at he'
    · exact absurd he' List.not_mem_nil
    · rcases List.mem_append.mp he' with hscheduled | htold
      · cases timed with
        | false => exact absurd hscheduled List.not_mem_nil
        | true =>
          rcases List.mem_append.mp hscheduled with hdisarmed | harmed
          · exact disarms_quiet _ e' hdisarmed
          · rw [List.mem_singleton.mp harmed]
            intro h
            cases h
      · exact deliveries_quiet _ _ e' htold
  rw [foldl_onLock hquiet, add]
  dsimp only
  split
  · exact hplace
  · cases timed <;> exact hplace

/-- With the lock a call has the disk write, or it gives the lock back and answers. -/
theorem lockTaken_cases (s : Index) (after : AfterSave) :
    ((∃ path snapshot, (s.lockTaken after).turn = .ask (.write path snapshot) (.writing after)) ∧
        lockAfter (s.lockTaken after) = s.lock) ∨
      (s.lockTaken after).turn = .done (.ok (after.answered false)) ∧
        lockAfter (s.lockTaken after) = s.lock.leave.1 := by
  unfold lockTaken
  split
  · next path _ _ => exact .inl ⟨⟨path, s.snapshot, rfl⟩, rfl⟩
  · rw [afterSave_eq]
    refine .inr ⟨rfl, ?_⟩
    change (s.left after).lock.leave.1 = _
    rw [left_lock]

/-- When the disk is done the lock is given back and the call is over. -/
theorem written_cases (s : Index) (after : AfterSave) (result : Except Failure Unit) :
    lockAfter (s.written after result) = s.lock.leave.1 ∧
      ((∃ saved, (s.written after result).turn = .done (.ok (after.answered saved))) ∨
        ∃ e, result = .error e ∧ toleratesWrite e = false ∧
          (s.written after result).turn = .done (.error e)) := by
  cases result with
  | ok u =>
    rw [written, afterSave_eq]
    refine ⟨?_, .inl ⟨true, rfl⟩⟩
    change (s.left after).lock.leave.1 = _
    rw [left_lock]
  | error e =>
    cases htolerated : toleratesWrite e with
    | true =>
      rw [written, if_pos htolerated, afterSave_eq]
      refine ⟨?_, .inl ⟨false, rfl⟩⟩
      change (Index.left _ after).lock.leave.1 = _
      rw [left_lock]
    | false =>
      rw [written, if_neg (by rw [htolerated]; exact Bool.false_ne_true)]
      exact ⟨rfl, .inr ⟨e, rfl, htolerated, rfl⟩⟩

end Locks

namespace Session

/-- The calls of a session and its lock are as they were. -/
structure SameCalls (s t : Session) : Prop where
  lock : t.index.lock = s.index.lock
  flights : t.flights = s.flights
  nextId : t.nextId = s.nextId
  answers : t.answers = s.answers

theorem advance_outcome (s : Session) (id : Nat) (ticket : Option Nat) (work : Work) :
    (∃ r, work.turn = .done r ∧ (s.advance id ticket work).answers = (id, r) :: s.answers ∧
        (s.advance id ticket work).flights = s.flights) ∨
      ∃ request waiting, work.turn = .ask request waiting ∧
        (s.advance id ticket work).answers = s.answers ∧
        (s.advance id ticket work).flights = s.flights ++ [⟨id, ticket, request, waiting⟩] := by
  unfold advance
  split
  · next r hturn =>
    refine .inl ⟨r, hturn, ?_, change_flights ..⟩
    change (id, r) :: (s.change work.state work.effects).answers = _
    rw [change_answers]
  · next request waiting hturn =>
    refine .inr ⟨request, waiting, hturn, change_answers .., ?_⟩
    change (s.change work.state work.effects).flights ++ _ = _
    rw [change_flights]

/-- Work for a call answers that call, or lets it wait. -/
theorem settle_outcome (s : Session) (id : Nat) (ticket : Option Nat) (work : Work) :
    (∃ r, (s.settle id ticket work).answers = (id, r) :: s.answers ∧
        (s.settle id ticket work).flights = s.flights) ∨
      (s.settle id ticket work).answers = s.answers ∧
        ∃ f : Flight, f.id = id ∧ (s.settle id ticket work).flights = s.flights ++ [f] := by
  have hadvance (t : Session) (work : Work) :
      (∃ r, (t.advance id ticket work).answers = (id, r) :: t.answers ∧
          (t.advance id ticket work).flights = t.flights) ∨
        (t.advance id ticket work).answers = t.answers ∧
          ∃ f : Flight, f.id = id ∧ (t.advance id ticket work).flights = t.flights ++ [f] := by
    rcases t.advance_outcome id ticket work with ⟨r, -, hanswers, hflights⟩ |
      ⟨request, waiting, -, hanswers, hflights⟩
    · exact .inl ⟨r, hanswers, hflights⟩
    · exact .inr ⟨hanswers, ⟨id, ticket, request, waiting⟩, rfl, hflights⟩
  unfold settle
  split
  · next after _ =>
    dsimp only
    split
    · have houtcome := hadvance (s.change work.state work.effects)
        (((s.change work.state work.effects).index.withLock
          (s.change work.state work.effects).index.lock.take).lockTaken after)
      rwa [change_answers, change_flights] at houtcome
    · refine .inr ⟨change_answers .., ⟨id, ticket, .lock, .queued after⟩, rfl, ?_⟩
      change (s.change work.state work.effects).flights ++ _ = _
      rw [change_flights]
  · exact hadvance s work

theorem settle_nextId (s : Session) (id : Nat) (ticket : Option Nat) (work : Work) :
    (s.settle id ticket work).nextId = s.nextId := by
  have hadvance (t : Session) (work : Work) : (t.advance id ticket work).nextId = t.nextId := by
    unfold advance
    split <;> exact t.change_nextId ..
  unfold settle
  split
  · dsimp only
    split
    · exact (hadvance ..).trans (s.change_nextId ..)
    · exact s.change_nextId ..
  · exact hadvance s work

theorem settle_answers (s : Session) (id : Nat) (ticket : Option Nat) (work : Work) :
    (s.settle id ticket work).answers = s.answers ∨
      ∃ r, (s.settle id ticket work).answers = (id, r) :: s.answers := by
  rcases s.settle_outcome id ticket work with ⟨r, hanswers, -⟩ | ⟨hanswers, -⟩
  · exact .inr ⟨r, hanswers⟩
  · exact .inl hanswers

theorem settle_flights (s : Session) (id : Nat) (ticket : Option Nat) (work : Work) :
    (s.settle id ticket work).flights = s.flights ∨
      ∃ f : Flight, f.id = id ∧ (s.settle id ticket work).flights = s.flights ++ [f] := by
  rcases s.settle_outcome id ticket work with ⟨r, -, hflights⟩ | ⟨-, hmore⟩
  · exact .inl hflights
  · exact .inr hmore

theorem sameCalls_index (s : Session) {index : Index} (hlock : index.lock = s.index.lock) :
    SameCalls s { s with index } :=
  ⟨hlock, rfl, rfl, rfl⟩

/-- What can happen to the calls: nothing, or one begins, or one that waits goes on. -/
theorem step_cases (s : Session) (a : Action) :
    SameCalls s (s.step a) ∨
      (∃ (t : Session) (ticket : Option Nat) (work : Work), SameCalls s t ∧
        lockAfter work = s.index.lock ∧ s.step a = t.launch ticket work) ∨
      ∃ (f : Flight) (result : Except Failure Unit), a = .resume f.id result ∧
        s.flights.find? (·.id = f.id) = some f ∧ s.step a = s.wake f result := by
  have hrest : SameCalls s s := ⟨rfl, rfl, rfl, rfl⟩
  cases a with
  | begin now call => exact .inr (.inl ⟨s, none, _, hrest, s.index.lockAfter_begin now call, rfl⟩)
  | startSave ticket =>
    simp only [step]
    split
    · exact .inr (.inl ⟨{ s with due := s.due.erase ticket }, some ticket, _, ⟨rfl, rfl, rfl, rfl⟩,
        s.index.lockAfter_beginSave .answer, rfl⟩)
    · exact .inl hrest
  | resume id result =>
    simp only [step]
    split
    · next f hf =>
      obtain rfl : f.id = id := by simpa using List.find?_some hf
      exact .inr (.inr ⟨f, result, rfl, hf, rfl⟩)
    · exact .inl hrest
  | add now timed e =>
    refine .inl ⟨?_, change_flights .., change_nextId .., change_answers ..⟩
    rw [step, change_index]
    exact s.index.lock_add now timed e
  | ring ticket =>
    simp only [step]
    split
    · refine .inl ⟨?_, change_flights .., change_nextId .., change_answers ..⟩
      rw [change_index]
      rfl
    · exact .inl hrest
  | noteOver ticket =>
    simp only [step]
    split
    · exact .inl ⟨rfl, rfl, rfl, rfl⟩
    · exact .inl hrest
  | search text exact limit =>
    obtain ⟨finder, hfinder⟩ := search_index s.index text exact limit
    refine .inl (s.sameCalls_index ?_)
    rw [hfinder]
  | query text limit =>
    obtain ⟨finder, hfinder⟩ := query_index s.index text limit
    refine .inl (s.sameCalls_index ?_)
    rw [hfinder]
  | listen l =>
    refine .inl (s.sameCalls_index ?_)
    rw [Index.listen]
    split <;> rfl
  | clear now => exact .inl ⟨rfl, rfl, rfl, rfl⟩
  | unlisten l => exact .inl ⟨rfl, rfl, rfl, rfl⟩
  | disturb file => exact .inl ⟨rfl, rfl, rfl, rfl⟩

/-- A write ends as the disk says, or for want of a text, and leaves the calls alone. -/
theorem concludeWrite_spec (s : Session) (snapshot : Snapshot) (result : Except Failure Unit) :
    SameCalls s (s.concludeWrite snapshot result).1 ∧
      ∀ e, (s.concludeWrite snapshot result).2 = .error e →
        result = .error e ∨ toleratesWrite e = true := by
  cases result with
  | error e => exact ⟨⟨rfl, rfl, rfl, rfl⟩, fun _ h => .inl h⟩
  | ok u =>
    cases htext : snapshot.text with
    | ok text =>
      simp only [concludeWrite, htext]
      refine ⟨⟨rfl, rfl, rfl, rfl⟩, fun e he => ?_⟩
      cases he
    | error e =>
      simp only [concludeWrite, htext]
      refine ⟨⟨rfl, rfl, rfl, rfl⟩, fun e' he' => .inr ?_⟩
      rw [← Except.error.inj he']
      exact toleratesWrite_text htext

theorem wake_writing (s : Session) {f : Flight} {path : String} {snapshot : Snapshot}
    {after : AfterSave} (hrequest : f.request = .write path snapshot)
    (hwaiting : f.waiting = .writing after) (result : Except Failure Unit) :
    ∃ (t : Session) (outcome : Except Failure Unit), SameCalls (s.without f) t ∧
      (∀ e, outcome = .error e → result = .error e ∨ toleratesWrite e = true) ∧
      s.wake f result = t.settle f.id f.ticket (s.index.written after outcome) := by
  obtain ⟨hsame, htold⟩ := (s.without f).concludeWrite_spec snapshot result
  refine ⟨_, _, hsame, htold, ?_⟩
  simp only [wake, hrequest, hwaiting]

/-- Who is first in the queue of a free lock takes it. -/
theorem wake_first (s : Session) {f : Flight} {after : AfterSave} (hrequest : f.request = .lock)
    (hwaiting : f.waiting = .queued after) (hfree : s.index.lock.held = false)
    (hfirst : s.index.lock.queue.head? = some f.id) (result : Except Failure Unit) :
    s.wake f result = (s.without f).settle f.id f.ticket
      ((s.index.withLock (s.index.lock.enter f.id)).lockTaken after) := by
  simp only [wake, hrequest, hwaiting, hfree, hfirst, Bool.not_false, decide_true, Bool.and_self,
    if_true]

/-- What a call goes on with: the lock, the end of its write, or neither. -/
inductive WakeKind (s : Session) (f : Flight) (result : Except Failure Unit) (work : Work) : Prop
  | other (awaits : f.awaitsLock = false) (writes : f.writes = false)
      (lock : lockAfter work = s.index.lock)
  | lock (after : AfterSave) (request : f.request = .lock) (waiting : f.waiting = .queued after)
      (free : s.index.lock.held = false) (first : s.index.lock.queue.head? = some f.id)
      (work_eq : work = (s.index.withLock (s.index.lock.enter f.id)).lockTaken after)
  | write (path : String) (snapshot : Snapshot) (after : AfterSave) (outcome : Except Failure Unit)
      (request : f.request = .write path snapshot) (waiting : f.waiting = .writing after)
      (told : ∀ e, outcome = .error e → result = .error e ∨ toleratesWrite e = true)
      (work_eq : work = s.index.written after outcome)

/-- A call that is told to go on waits further, or does work without being among those that
wait. -/
theorem wake_kinds (s : Session) (f : Flight) (result : Except Failure Unit) :
    s.wake f result = s ∨ ∃ (t : Session) (work : Work), SameCalls (s.without f) t ∧
      s.wake f result = t.settle f.id f.ticket work ∧ WakeKind s f result work := by
  unfold wake
  split
  · next initial hrequest hwaiting =>
    refine .inr ⟨s.without f, _, ⟨rfl, rfl, rfl, rfl⟩, rfl, .other ?_ ?_ ?_⟩
    · simp [Flight.awaitsLock, hrequest]
    · simp [Flight.writes, hrequest]
    · exact s.index.lockAfter_loaded initial _
  · next after hrequest hwaiting =>
    split
    · next hturn =>
      rw [Bool.and_eq_true, Bool.not_eq_true', decide_eq_true_eq] at hturn
      exact .inr ⟨s.without f, _, ⟨rfl, rfl, rfl, rfl⟩, rfl,
        .lock after hrequest hwaiting hturn.1 hturn.2 rfl⟩
    · exact .inl rfl
  · next path snapshot after hrequest hwaiting =>
    obtain ⟨t, outcome, hsame, htold, hwake⟩ := s.wake_writing hrequest hwaiting result
    simp only [wake, hrequest, hwaiting] at hwake
    exact .inr ⟨t, _, hsame, hwake, .write path snapshot after outcome hrequest hwaiting htold rfl⟩
  · next tickets hrequest hwaiting =>
    split
    · exact .inl rfl
    · refine .inr ⟨s.without f, _, ⟨rfl, rfl, rfl, rfl⟩, rfl, .other ?_ ?_ ?_⟩
      · simp [Flight.awaitsLock, hrequest]
      · simp [Flight.writes, hrequest]
      · exact s.index.lockAfter_beginSave .drop
  · exact .inl rfl

end Session

end LiveIndex.Index
