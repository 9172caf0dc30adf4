import LiveIndex.Proofs.Index.Content

/-! Calls of an index that nothing else goes on beside. Such a call runs from its beginning to its
end: it gets the lock at once, its write succeeds or fails in a way that a save lives with, and it
answers. -/

namespace LiveIndex.Index

/-- What a call answers that goes on after its save. -/
def AfterSave.answer? : AfterSave → Option Answer
  | .summary s => some (.summary s)
  | .count n => some (.count n)
  | _ => none

theorem afterSave_of_answer (s : Index) (effects : List Effect) (saved : Bool) {after : AfterSave}
    {answer : Answer} (h : after.answer? = some answer) :
    s.afterSave effects saved after = .done s effects answer := by
  cases after with
  | summary summary =>
    cases h
    rfl
  | count n =>
    cases h
    rfl
  | answer => cases h
  | drop => cases h

/-- When a call begins, and what comes of the write that it may end with. -/
structure Moment where
  now : Int
  result : Except Failure Unit

/-- A call lives with what comes of its write. -/
def Moment.Bearable (m : Moment) : Prop :=
  ∀ f, m.result = .error f → toleratesWrite f = true

theorem Moment.bearable_ok (now : Int) : Moment.Bearable ⟨now, .ok ()⟩ :=
  nofun

theorem Moment.bearable_of_mem_replicate {n : Nat} {now : Int} {m : Moment}
    (hm : m ∈ List.replicate n (Moment.mk now (.ok ()))) : m.Bearable := by
  rw [List.eq_of_mem_replicate hm]
  exact bearable_ok now

theorem Moment.bearable_of_mem_replicates {k n : Nat} {now : Int} {m : Moment}
    (hm : m ∈ List.replicate k (Moment.mk now (.ok ())) ++ List.replicate n ⟨now, .ok ()⟩) :
    m.Bearable := by
  rw [List.replicate_append_replicate] at hm
  exact bearable_of_mem_replicate hm

namespace Session

/-- A session in which nothing is under way. -/
structure Idle (s : Session) : Prop where
  flights : s.flights = []
  free : s.index.lock.isFree = true

/-- Lets a call run from its beginning to its end. -/
def call (s : Session) (m : Moment) (c : Call) : Session :=
  (s.step (.begin m.now c)).step (.resume s.nextId m.result)

/-- What a call has been answered. -/
def answer? (s : Session) (id : Nat) : Option (Except Failure Answer) :=
  (s.answers.find? (·.1 = id)).map Prod.snd

theorem answer?_finish (s : Session) (id : Nat) (ticket : Option Nat)
    (result : Except Failure Answer) : (s.finish id ticket result).answer? id = some result := by
  simp [answer?, finish]

variable {s : Session}

/-- A call that has nothing to save ends where it begins. -/
theorem alone_done (h : s.Idle) {i : Index} (hlock : i.lock = s.index.lock) {effects : List Effect}
    (hquiet : ∀ e ∈ effects, e ≠ .unlock) (answer : Answer) (result : Except Failure Unit) :
    let t := (s.launch none (.done i effects answer)).step (.resume s.nextId result)
    t.Idle ∧ t.index = i ∧ t.answer? s.nextId = some (.ok answer) := by
  intro t
  have hlaunch : s.launch none (.done i effects answer) =
      ({ s with nextId := s.nextId + 1 }.change i effects).finish s.nextId none (.ok answer) := rfl
  have hflights : (s.launch none (.done i effects answer)).flights = [] := by
    rw [hlaunch]
    exact (change_flights ..).trans h.flights
  have ht : t = s.launch none (.done i effects answer) := by
    change (s.launch none (.done i effects answer)).step (.resume s.nextId result) = _
    rw [step, hflights]
    rfl
  have hindex : t.index = i := by
    rw [ht, hlaunch, finish_index, change_index, foldl_onLock hquiet]
    rfl
  refine ⟨⟨?_, ?_⟩, hindex, ?_⟩
  · rw [ht, hflights]
  · rw [hindex, hlock]
    exact h.free
  · rw [ht, hlaunch]
    exact answer?_finish ..

/-- A call that saves gets the lock at once and gives it back when it has written. -/
theorem alone_save (h : s.Idle) {i : Index} (hlock : i.lock = s.index.lock)
    (hpath : i.path.isSome = true) (hdirty : i.dirty = true) {effects : List Effect}
    (hquiet : ∀ e ∈ effects, e ≠ .unlock) {after : AfterSave} {answer : Answer}
    (hanswer : after.answer? = some answer) {result : Except Failure Unit}
    (hresult : ∀ f, result = .error f → toleratesWrite f = true) :
    let t := (s.launch none (.ask i effects .lock (.queued after))).step (.resume s.nextId result)
    t.Idle ∧ t.index.kept = i.kept ∧ t.answer? s.nextId = some (.ok answer) := by
  intro t
  obtain ⟨p, hp⟩ := Option.isSome_iff_exists.mp hpath
  have hfree : i.lock.isFree = true := by
    rw [hlock]
    exact h.free
  have hqueue : i.lock.queue.isEmpty = true := by
    rw [Lock.isFree, Bool.and_eq_true] at hfree
    exact hfree.2
  have hindex : ({ s with nextId := s.nextId + 1 }.change i effects).index = i := by
    rw [change_index, foldl_onLock hquiet]
    rfl
  obtain ⟨f, hf⟩ : ∃ f : Flight, f = ⟨s.nextId, none, .write p i.snapshot, .writing after⟩ :=
    ⟨_, rfl⟩
  -- The write begins in the same breath.
  obtain ⟨m, hm⟩ : ∃ m, m = s.launch none (.ask i effects .lock (.queued after)) := ⟨_, rfl⟩
  have hmid : m.flights = [f] ∧
      m.index = ({ i with dirty := false }.withLock i.lock.take) := by
    have htaken : (i.withLock i.lock.take).lockTaken after =
        .ask ({ i with dirty := false }.withLock i.lock.take) [] (.write p i.snapshot)
          (.writing after) := lockTaken_dirty (s := i.withLock i.lock.take) hp hdirty after
    have hsettle : s.launch none (.ask i effects .lock (.queued after)) =
        ({ s with nextId := s.nextId + 1 }.change i effects).advance s.nextId none
          ((i.withLock i.lock.take).lockTaken after) := by
      unfold launch settle
      simp only [Stretch.ask, hindex, hfree, if_true]
    rw [hm, hsettle, htaken, hf]
    refine ⟨?_, rfl⟩
    change ({ s with nextId := s.nextId + 1 }.change i effects).flights ++ _ = _
    rw [change_flights, h.flights]
    rfl
  obtain ⟨hflights, hmindex⟩ := hmid
  have hrest : (m.without f).flights = [] := by
    simp [without, hflights]
  have ht : t = m.wake f result := by
    change (s.launch none (.ask i effects .lock (.queued after))).step _ = _
    have hid : decide (f.id = s.nextId) = true := by
      rw [hf]
      exact decide_eq_true rfl
    rw [← hm, step, hflights, List.find?_cons, hid]
  have hwake : m.wake f result =
      ((m.without f).concludeWrite i.snapshot result).1.settle s.nextId none
        (m.index.written after ((m.without f).concludeWrite i.snapshot result).2) := by
    rw [hf]
    rfl
  rw [ht, hwake]
  -- Whatever comes of the write, the lock is given back and the call answers.
  rcases concludeWrite_cases (m.without f) i.snapshot hresult with
    ⟨text, -, hconclude⟩ | ⟨e, he, hconclude⟩
  · rw [hconclude]
    simp only [written, afterSave_of_answer _ _ _ hanswer]
    refine ⟨⟨hrest, ?_⟩, ?_, answer?_finish ..⟩
    · rw [hmindex]
      exact hqueue
    · rw [hmindex]
      rfl
  · rw [hconclude]
    simp only [written, he, if_true, afterSave_of_answer _ _ _ hanswer]
    refine ⟨⟨hrest, ?_⟩, ?_, answer?_finish ..⟩
    · rw [hmindex]
      exact hqueue
    · rw [hmindex]
      rfl

/-- A call that tells of changes saves them if the index is bound to a place. -/
theorem alone_publish (h : s.Idle) {i : Index} (hlock : i.lock = s.index.lock) (now : Int)
    (changes : List Notice) (after : AfterSave) {answer : Answer}
    (hanswer : after.answer? = some answer) {result : Except Failure Unit}
    (hresult : ∀ f, result = .error f → toleratesWrite f = true) :
    let t := (s.launch none (i.publish now changes after)).step (.resume s.nextId result)
    t.Idle ∧ t.index.kept = (i.bump now).kept ∧ t.answer? s.nextId = some (.ok answer) := by
  intro t
  have hquiet := (i.bump now).deliveries_quiet changes
  cases hpath : i.path.isSome with
  | false =>
    have hpublish : i.publish now changes after =
        .done (i.bump now) ((i.bump now).deliveries changes) answer := by
      have hnone : i.path.isNone = true := by
        rw [← Option.not_isSome, hpath]
        rfl
      have hbegin : (i.bump now).beginSave after = (i.bump now).afterSave [] false after := by
        rw [beginSave]
        exact if_pos (by rw [Bool.or_eq_true]; exact .inl hnone)
      change ((i.bump now).beginSave after).after ((i.bump now).deliveries changes) = _
      rw [hbegin, afterSave_of_answer _ _ _ hanswer, Stretch.done, Stretch.after, List.append_nil]
      rfl
    obtain ⟨hidle, hindex, hanswered⟩ := alone_done h (i := i.bump now) hlock hquiet answer result
    rw [← hpublish] at hidle hindex hanswered
    exact ⟨hidle, congrArg kept hindex, hanswered⟩
  | true =>
    have hsaved := alone_save h (i := i.bump now) hlock hpath rfl hquiet hanswer hresult
    rw [← publish_bound hpath now changes after] at hsaved
    exact hsaved

/-- What a call has left in the index. -/
structure Leaves (s : Session) (i : Index) (answer : Answer) (t : Session) : Prop where
  idle : t.Idle
  entries : t.index.entries = i.entries
  counters : t.index.stats.counters = i.stats.counters
  answer : t.answer? s.nextId = some (.ok answer)

/-- A call that tells of its changes, if there are any, leaves the index that it has made. -/
theorem leaves_changes (h : s.Idle) {m : Moment} (hm : m.Bearable) {i : Index}
    (hlock : i.lock = s.index.lock) {c : Call} (changes : List Notice) (after : AfterSave)
    {answer : Answer} (hanswer : after.answer? = some answer)
    (hbegin : s.index.begin m.now c =
      if changes.isEmpty then .done i [] answer else i.publish m.now changes after) :
    Leaves s i answer (s.call m c) := by
  have hcall : s.call m c =
      (s.launch none (s.index.begin m.now c)).step (.resume s.nextId m.result) := rfl
  rw [hcall, hbegin]
  split
  · obtain ⟨hidle, hindex, hanswered⟩ :=
      alone_done h hlock (fun _ he => absurd he List.not_mem_nil) answer m.result
    exact ⟨hidle, by rw [hindex], by rw [hindex], hanswered⟩
  · obtain ⟨hidle, hkept, hanswered⟩ := alone_publish h hlock m.now changes after hanswer hm
    simp only [kept, Prod.mk.injEq] at hkept
    refine ⟨hidle, hkept.1, ?_, hanswered⟩
    rw [hkept.2.1]
    rfl

/-- A batch that nothing else goes on beside leaves its entries and answers with their counts. -/
theorem call_batch (h : s.Idle) {m : Moment} (hm : m.Bearable) (entries : List Entry) :
    Leaves s (s.index.upsertAll entries).1 (.summary (s.index.upsertAll entries).2.1)
      (s.call m (.batch entries)) :=
  leaves_changes h hm (samePlace_upsertAll s.index entries).lock (s.index.upsertAll entries).2.2
    (.summary (s.index.upsertAll entries).2.1) rfl rfl

/-- A removal that nothing else goes on beside takes a path with its family away. -/
theorem call_remove (h : s.Idle) {m : Moment} (hm : m.Bearable) (path : String) :
    Leaves s (s.index.removeFamily path).1 (.count (s.index.removeFamily path).2.length)
      (s.call m (.remove path)) := by
  refine leaves_changes h hm (samePlace_removeFamily s.index path).lock
    ((s.index.removeFamily path).2.map fun e => ⟨.remove, e.path, none⟩)
    (.count (s.index.removeFamily path).2.length) rfl ?_
  unfold begin beginRemove
  dsimp only
  rw [List.isEmpty_map]
  cases hremoved : (s.index.removeFamily path).2 with
  | nil => rfl
  | cons e rest => rfl

end Session

/-- An entry that was made and changed in October 2020. -/
def oldEntry (path name relativePath : String) (kind : Kind) : Entry :=
  let stamp : Time.Stamp := ⟨⟨2020, 10, 10, by decide, by decide, by decide⟩,
    ⟨10, 10, 10, 10, by decide, by decide, by decide, by decide⟩, none⟩
  ⟨path, name, relativePath, "", 0, stamp, stamp, kind⟩

/-- A directory and a file in it come into an index. -/
def smallActions : List Action :=
  [.begin 0 (.batch
    [oldEntry "/r/d" "d" "d" .directory, oldEntry "/r/d/a.txt" "a.txt" "d/a.txt" .file])]

def smallIndex : Session :=
  (Session.fresh .default (.error .badDocument)).run smallActions

theorem idle_smallIndex : smallIndex.Idle :=
  ⟨rfl, rfl⟩

theorem paths_smallIndex {p : String} (hp : smallIndex.index.entries.get? p ≠ none) :
    p = "/r/d" ∨ p = "/r/d/a.txt" := by
  have hkeys : smallIndex.index.entries.keys = ["/r/d", "/r/d/a.txt"] := rfl
  have hmem : p ∈ smallIndex.index.entries.keys :=
    OrderedMap.mem_keys_iff.mpr (Option.ne_none_iff_exists'.mp hp)
  rwa [hkeys, List.mem_cons, List.mem_singleton] at hmem

end LiveIndex.Index
