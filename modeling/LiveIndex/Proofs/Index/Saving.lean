import LiveIndex.Proofs.Index.Drift
import LiveIndex.Proofs.Snapshot.RoundTrip

/-! What is stored and what is still to be stored. An index that is bound to a file nobody else
writes moves in five ways only; what holds of the file and of the mark of a change follows from
these. -/

namespace LiveIndex.Index

/-- What an index has of itself in its file. -/
def kept (s : Index) : OrderedMap String Entry × Stats × Int :=
  (s.entries, s.stats, s.version)

/-- What a new index finds in a file. One that is missing or cannot be used counts as none. -/
def reloaded (file : Except Failure Content) : Index :=
  ((create .default).loaded true (Disk.decodeSnapshot file)).state

/-- Whether a file gives an index again: its entries in their order, its counters and its
version. -/
def Holds (file : Except Failure Content) (s : Index) : Prop :=
  (reloaded file).kept = s.kept

theorem snapshot_of_kept {s s' : Index} (h : s.kept = s'.kept) : s.snapshot = s'.snapshot := by
  simp only [kept, Prod.mk.injEq] at h
  simp only [snapshot, h]

/-- What is read back of a consistent index is that index. -/
theorem adopt_snapshot {s : Index} (h : s.Consistent) (t : Index) :
    (t.adopt s.snapshot).kept = s.kept := by
  -- Every entry stands under its own path, so the paths give the keys again.
  have hentries : OrderedMap.ofList (s.entries.values.map fun e => (e.path, e)) = s.entries :=
    OrderedMap.ofList_values h.keyed
  -- The stored counters are not looked at, but counting anew comes to the same.
  have hstats : (t.adopt s.snapshot).stats = s.stats := by
    apply Stats.eq_of_counters
    · refine (Stats.counters_ofEntries ..).trans ?_
      rw [h.counted, OrderedMap.total, ← hentries]
      rfl
    · refine (Stats.lastUpdated_ofEntries ..).trans ?_
      exact ite_self _
  exact Prod.ext hentries (Prod.ext hstats rfl)

theorem Holds.of_text {s : Index} (h : s.Consistent) {text : String}
    (htext : s.snapshot.text = .ok text) : Holds (.ok (.text text)) s := by
  have hdecode : Disk.decodeSnapshot (.ok (.text text)) = .ok s.snapshot :=
    Snapshot.ofText_text htext
  rw [Holds, reloaded, hdecode]
  exact adopt_snapshot h _

/-- A write that cannot make its text fails in a way that a save lives with. -/
theorem toleratesWrite_text {s : Snapshot} {f : Failure} (h : s.text = .error f) :
    toleratesWrite f = true := by
  unfold Snapshot.text at h
  split at h
  · cases h
  · cases h
    rfl

/-- An upsert that there is nothing to tell of has changed nothing. -/
theorem upsert_unchanged {s : Index} {e : Entry} (h : (s.upsert e).2.change? e = none) :
    (s.upsert e).1 = s := by
  unfold upsert at h ⊢
  split at h
  · cases h
  · split at h
    · next hsame => rw [if_pos hsame]
    · cases h

theorem upsertAll_unchanged {s : Index} {entries : List Entry}
    (h : (s.upsertAll entries).2.2 = []) : (s.upsertAll entries).1 = s := by
  induction entries generalizing s with
  | nil => rfl
  | cons e entries ih =>
    have happend : ((s.upsert e).2.change? e).toList ++
        ((s.upsert e).1.upsertAll entries).2.2 = [] := h
    -- Nothing is told of the first entry, so the rest starts from the same index.
    obtain ⟨hone, hrest⟩ := List.append_eq_nil_iff.mp happend
    have hsame : (s.upsert e).1 = s := upsert_unchanged (Option.toList_eq_nil_iff.mp hone)
    have hall : (s.upsertAll (e :: entries)).1 = ((s.upsert e).1.upsertAll entries).1 := rfl
    rw [hall, ih hrest, hsame]

theorem removeFamily_unchanged {s : Index} {path : String}
    (h : (s.removeFamily path).2 = []) : (s.removeFamily path).1 = s := by
  unfold removeFamily at h ⊢
  split
  · rfl
  · next e he =>
    -- The family of an entry has the entry itself.
    exfalso
    rw [he] at h
    simp only [family, he] at h
    split at h <;> cases h

/-- Whether a call goes on with the index after its save. -/
def AfterSave.isOrdinary : AfterSave → Bool
  | .drop => false
  | _ => true

/-- The snapshot that a call has the disk write. -/
def Flight.written? (f : Flight) : Option Snapshot :=
  match f.request with
  | .write _ snapshot => some snapshot
  | _ => none

/-- Whether a call waits for the lock in order to save. -/
def Flight.isQueued (f : Flight) : Bool :=
  match f.request, f.waiting with
  | .lock, .queued after => after.isOrdinary
  | _, _ => false

def Flight.isWriting (f : Flight) : Bool :=
  match f.request, f.waiting with
  | .write .., .writing after => after.isOrdinary
  | _, _ => false

/-- Whether an action belongs to the ordinary use of an index that is bound to its file: the index
is not bound again, loaded or ended, nobody else writes the file, single entries come from where
time passes, and a write fails only in ways that a save lives with. -/
def Action.isOrdinary : Action → Bool
  | .begin _ .save | .begin _ (.batch _) | .begin _ (.remove _) => true
  | .begin .. | .disturb _ | .add _ false _ => false
  | .resume _ (.error f) => toleratesWrite f
  | _ => true

def Mark.isWrite : Mark → Bool
  | .cleared => false
  | _ => true

def Mark.isStart : Mark → Bool
  | .writeOver _ => false
  | _ => true

namespace Session

def writers (s : Session) : List Snapshot :=
  s.flights.filterMap Flight.written?

/-- Whether something is under way that will save the index. -/
def HasSaver (s : Session) : Prop :=
  s.armed ≠ [] ∨ s.due ≠ [] ∨ ∃ f ∈ s.flights, f.isQueued = true

/-- Whether the latest write has failed. -/
def LastWriteFailed (s : Session) : Prop :=
  s.marks.find? Mark.isWrite = some (.writeOver false)

/-- Whether no write has begun since the index was last cleared. -/
def UnwrittenSinceClear (s : Session) : Prop :=
  s.marks.find? Mark.isStart = some .cleared

/-- An index that is bound to a file, with no calls but saves, of which the one that has the lock
is writing. -/
structure Bound (s : Session) : Prop where
  path : s.index.path.isSome = true
  saves : ∀ f ∈ s.flights, f.isQueued = true ∨ f.isWriting = true
  writes : s.writers.length = if s.index.lock.held then 1 else 0

theorem Bound.none_writing {s : Session} (h : s.Bound) (hfree : s.index.lock.held = false) :
    s.writers = [] := by
  have hlength := h.writes
  rw [hfree] at hlength
  exact List.eq_nil_of_length_eq_zero hlength

/-- What an ordinary action can do to the stored form of an index and to what is to be stored. -/
inductive Move (s s' : Session) : Prop
  /-- Nothing of the index changes; whatever will save it, if that is needed, is still there. -/
  | rest (kept : s'.index.kept = s.index.kept) (dirty : s'.index.dirty = s.index.dirty)
      (writers : s'.writers = s.writers) (file : s'.file = s.file) (marks : s'.marks = s.marks)
      (saver : s.index.dirty = true → s.HasSaver → s'.HasSaver)
  /-- The index changes; something will save it, or it has been cleared. -/
  | touch (dirty : s'.index.dirty = true) (writers : s'.writers = s.writers)
      (file : s'.file = s.file)
      (saver : s'.HasSaver ∧ s'.marks = s.marks ∨ s'.marks = .cleared :: s.marks)
  /-- A write begins of the index as it is now. -/
  | capture (dirty : s'.index.dirty = false) (free : s.writers = [])
      (writers : s'.writers = [s'.index.snapshot]) (file : s'.file = s.file)
      (marks : s'.marks = .writeBegun :: s.marks)
  /-- A write ends with the new text in place. -/
  | store (snapshot : Snapshot) (text : String) (kept : s'.index.kept = s.index.kept)
      (dirty : s'.index.dirty = s.index.dirty) (writing : s.writers = [snapshot])
      (writers : s'.writers = []) (written : snapshot.text = .ok text)
      (file : s'.file = .ok (.text text)) (marks : s'.marks = .writeOver true :: s.marks)
      (saver : s.HasSaver → s'.HasSaver)
  /-- A write ends with the old text still there. -/
  | fail (dirty : s'.index.dirty = true) (writers : s'.writers = []) (file : s'.file = s.file)
      (marks : s'.marks = .writeOver false :: s.marks)

end Session

/-- Effects other than unlocking leave the lock alone. -/
theorem foldl_onLock {effects : List Effect} (h : ∀ e ∈ effects, e ≠ .unlock) (lock : Lock) :
    effects.foldl (fun l e => e.onLock l) lock = lock := by
  induction effects with
  | nil => rfl
  | cons e effects ih =>
    have he : e.onLock lock = lock := by
      cases e with
      | unlock => exact absurd rfl (h .unlock List.mem_cons_self)
      | _ => rfl
    rw [List.foldl_cons, he, ih fun e he => h e (List.mem_cons_of_mem _ he)]

theorem lockTaken_dirty {s : Index} {p : String} (hp : s.path = some p) (hd : s.dirty = true)
    (after : AfterSave) :
    s.lockTaken after =
      .ask { s with dirty := false } [] (.write p s.snapshot) (.writing after) := by
  rw [lockTaken, hp, hd]

theorem lockTaken_clean {s : Index} (hd : s.dirty = false) (after : AfterSave) :
    s.lockTaken after = s.afterSave [.unlock] false after := by
  rw [lockTaken, hd]
  cases s.path <;> rfl

theorem beginSave_dirty {s : Index} (hp : s.path.isSome = true) (hd : s.dirty = true)
    (after : AfterSave) : s.beginSave after = .ask s [] .lock (.queued after) := by
  obtain ⟨p, hp⟩ := Option.isSome_iff_exists.mp hp
  rw [beginSave, hp, hd]
  rfl

theorem beginSave_clean {s : Index} (hd : s.dirty = false) (after : AfterSave) :
    s.beginSave after = s.afterSave [] false after := by
  rw [beginSave, hd]
  simp

def bump (s : Index) (now : Int) : Index :=
  { s.noteChange now with version := s.version + 1 }

theorem deliveries_quiet (s : Index) (changes : List Notice) :
    ∀ e ∈ s.deliveries changes, e ≠ .unlock := by
  intro e he
  obtain ⟨l, -, rfl⟩ := List.mem_map.mp he
  exact nofun

/-- Where an index is bound to a place, what is published is to be saved. -/
theorem publish_bound {s : Index} (hp : s.path.isSome = true) (now : Int) (changes : List Notice)
    (after : AfterSave) : s.publish now changes after =
      .ask (s.bump now) ((s.bump now).deliveries changes) .lock (.queued after) := by
  change ((s.bump now).beginSave after).after ((s.bump now).deliveries changes) = _
  rw [beginSave_dirty (s := s.bump now) hp rfl, Stretch.ask, Stretch.after, List.append_nil]
  rfl

theorem afterSave_ordinary (s : Index) (effects : List Effect) (saved : Bool) {after : AfterSave}
    (h : after.isOrdinary = true) :
    ∃ answer, s.afterSave effects saved after = .done s effects answer := by
  cases after with
  | drop => cases h
  | answer => exact ⟨_, rfl⟩
  | summary summary => exact ⟨_, rfl⟩
  | count n => exact ⟨_, rfl⟩

/-- What a save leaves of an index when its call goes on. -/
def left (s : Index) : AfterSave → Index
  | .drop => s.dropState
  | _ => s

def AfterSave.answered (saved : Bool) : AfterSave → Answer
  | .answer => .flag saved
  | .summary s => .summary s
  | .count n => .count n
  | .drop => .nothing

theorem afterSave_eq (s : Index) (effects : List Effect) (saved : Bool) (after : AfterSave) :
    s.afterSave effects saved after = .done (s.left after) effects (after.answered saved) := by
  cases after <;> rfl

theorem left_of_ordinary (s : Index) {after : AfterSave} (h : after.isOrdinary = true) :
    s.left after = s := by
  cases after with
  | drop => cases h
  | _ => rfl

theorem kept_left {s t : Index} (h : s.kept = t.kept) (after : AfterSave) :
    (s.left after).kept = (t.left after).kept := by
  have hversion : s.version = t.version := congrArg (·.2.2) h
  cases after with
  | drop =>
    change (OrderedMap.empty, Stats.zero 0, s.version) = _
    rw [hversion]
    rfl
  | _ => exact h

@[simp] theorem left_dirty (s : Index) (after : AfterSave) : (s.left after).dirty = s.dirty := by
  cases after <;> rfl

@[simp] theorem left_path (s : Index) (after : AfterSave) : (s.left after).path = s.path := by
  cases after <;> rfl

@[simp] theorem left_lock (s : Index) (after : AfterSave) : (s.left after).lock = s.lock := by
  cases after <;> rfl

namespace Session

/-- How a save begins of an index that has changed. -/
inductive SaveBegins (s : Session) (i : Index) (s' : Session) : Prop
  | writes (f : Flight) (writing : f.isWriting = true) (written : f.written? = some i.snapshot)
      (free : i.lock.held = false)
      (index : s'.index = { i with dirty := false }.withLock i.lock.take)
      (flights : s'.flights = s.flights ++ [f]) (file : s'.file = s.file)
      (marks : s'.marks = .writeBegun :: s.marks) (answers : s'.answers = s.answers)
  | waits (f : Flight) (queued : f.isQueued = true) (index : ∃ lock, s'.index = i.withLock lock ∧
      lock.held = i.lock.held)
      (flights : s'.flights = s.flights ++ [f]) (file : s'.file = s.file)
      (marks : s'.marks = s.marks) (answers : s'.answers = s.answers)

/-- An index that has changed is written at once where the lock is free; elsewhere its call joins
the queue. -/
theorem settle_queued (s : Session) (id : Nat) (ticket : Option Nat) {i : Index} {p : String}
    (hp : i.path = some p) (hd : i.dirty = true) {effects : List Effect}
    (hquiet : ∀ e ∈ effects, e ≠ .unlock) (after : AfterSave) :
    s.settle id ticket (.ask i effects .lock (.queued after)) =
      if i.lock.isFree then
        (s.change i effects).advance id ticket
          (.ask ({ i with dirty := false }.withLock i.lock.take) [] (.write p i.snapshot)
            (.writing after))
      else
        { s.change i effects with index := i.withLock (i.lock.wait id) }.park
          ⟨id, ticket, .lock, .queued after⟩ := by
  have hindex : (s.change i effects).index = i := by
    rw [change_index, foldl_onLock hquiet]
    rfl
  have htaken : (i.withLock i.lock.take).lockTaken after =
      .ask ({ i with dirty := false }.withLock i.lock.take) [] (.write p i.snapshot)
        (.writing after) := lockTaken_dirty (s := i.withLock i.lock.take) hp hd after
  unfold settle
  simp only [Stretch.ask, hindex]
  split
  · rw [htaken]
    rfl
  · rfl

theorem HasSaver.of_flight {s : Session} {f : Flight} (hf : f ∈ s.flights)
    (hq : f.isQueued = true) : s.HasSaver :=
  .inr (.inr ⟨f, hf, hq⟩)

theorem written?_of_isQueued {f : Flight} (h : f.isQueued = true) : f.written? = none := by
  unfold Flight.isQueued at h
  unfold Flight.written?
  split at h
  · next hr _ => rw [hr]
  · cases h

/-- A session stays bound where no call moves, whatever becomes of the content of its index. -/
theorem Bound.of_same {s s' : Session} (hb : s.Bound) (hpath : s'.index.path = s.index.path)
    (hlock : s'.index.lock = s.index.lock) (hflights : s'.flights = s.flights) :
    s'.Bound ∧ s'.writers = s.writers := by
  have hwriters : s'.writers = s.writers := by rw [writers, hflights, writers]
  refine ⟨⟨?_, ?_, ?_⟩, hwriters⟩
  · rw [hpath]
    exact hb.path
  · rw [hflights]
    exact hb.saves
  · rw [hwriters, hlock]
    exact hb.writes

/-- A call that begins to write when no other does makes the session that of a capture. -/
theorem move_capture {s s' : Session} (hnone : s.writers = []) {rest : List Flight}
    (hrest : rest.filterMap Flight.written? = [])
    (hsaves : ∀ f ∈ rest, f.isQueued = true ∨ f.isWriting = true) (g : Flight)
    (hg : g.isWriting = true) (hwritten : g.written? = some s'.index.snapshot)
    (hflights : s'.flights = rest ++ [g]) (hpath : s'.index.path.isSome = true)
    (hheld : s'.index.lock.held = true) (hdirty : s'.index.dirty = false)
    (hfile : s'.file = s.file) (hmarks : s'.marks = .writeBegun :: s.marks) :
    s'.Bound ∧ Move s s' := by
  have hone : s'.writers = [s'.index.snapshot] := by
    rw [writers, hflights, List.filterMap_append, hrest, List.nil_append,
      List.filterMap_cons_some hwritten, List.filterMap_nil]
  refine ⟨⟨hpath, ?_, ?_⟩, .capture hdirty hnone hone hfile hmarks⟩
  · intro f hf
    rw [hflights] at hf
    rcases List.mem_append.mp hf with hf | hf
    · exact hsaves f hf
    · rw [List.mem_singleton.mp hf]
      exact .inr hg
  · rw [hone, hheld]
    rfl

theorem SaveBegins.move {s t s' : Session} (hb : s.Bound) {i : Index}
    (hp : i.path.isSome = true) (hd : i.dirty = true) (hlock : i.lock = s.index.lock)
    (hflights : t.flights = s.flights) (hfile : t.file = s.file) (hmarks : t.marks = s.marks)
    (h : SaveBegins t i s') : s'.Bound ∧ Move s s' := by
  cases h with
  | writes f hwriting hwritten hfree hindex hnew hfile' hmarks' _ =>
    have hnone : s.writers = [] := hb.none_writing (by rw [← hlock]; exact hfree)
    refine move_capture hnone hnone hb.saves f hwriting ?_ ?_ ?_ ?_ ?_ (hfile'.trans hfile) ?_
    · rw [hwritten, hindex]
      rfl
    · rw [hnew, hflights]
    · rw [hindex]
      exact hp
    · rw [hindex]
      rfl
    · rw [hindex]
      rfl
    · rw [hmarks', hmarks]
  | waits f hqueued hindex hnew hfile' hmarks' _ =>
    obtain ⟨lock, hindex, hheld⟩ := hindex
    -- The call that queues up writes nothing yet; it is the saver that the mark calls for.
    have hwriters : s'.writers = s.writers := by
      rw [writers, hnew, hflights, List.filterMap_append,
        List.filterMap_cons_none (written?_of_isQueued hqueued), List.filterMap_nil,
        List.append_nil, writers]
    have hmem : f ∈ s'.flights := by
      rw [hnew]
      exact List.mem_append_right _ List.mem_cons_self
    refine ⟨⟨?_, ?_, ?_⟩, .touch ?_ hwriters (hfile'.trans hfile)
      (.inl ⟨.of_flight hmem hqueued, hmarks'.trans hmarks⟩)⟩
    · rw [hindex]
      exact hp
    · intro g hg
      rw [hnew, hflights, List.mem_append, List.mem_singleton] at hg
      rcases hg with hg | rfl
      · exact hb.saves g hg
      · exact .inl hqueued
    · rw [hwriters, hindex, withLock_lock, hheld, hlock]
      exact hb.writes
    · rw [hindex]
      exact hd

end Session

structure SamePlace (s s' : Index) : Prop where
  path : s'.path = s.path
  lock : s'.lock = s.lock

theorem samePlace_upsert (s : Index) (e : Entry) : SamePlace s (s.upsert e).1 := by
  unfold upsert
  split
  · exact ⟨rfl, rfl⟩
  · split
    · exact ⟨rfl, rfl⟩
    · exact ⟨rfl, rfl⟩

theorem samePlace_upsertAll (s : Index) (entries : List Entry) :
    SamePlace s (s.upsertAll entries).1 := by
  induction entries generalizing s with
  | nil => exact ⟨rfl, rfl⟩
  | cons e entries ih =>
    have hone := samePlace_upsert s e
    have hrest := ih (s.upsert e).1
    exact ⟨hrest.path.trans hone.path, hrest.lock.trans hone.lock⟩

theorem samePlace_removeFamily (s : Index) (path : String) :
    SamePlace s (s.removeFamily path).1 := by
  unfold removeFamily
  split
  · exact ⟨rfl, rfl⟩
  · exact ⟨rfl, rfl⟩

namespace Session

theorem eq_of_isQueued {f : Flight} (h : f.isQueued = true) :
    ∃ after, f.request = .lock ∧ f.waiting = .queued after ∧ after.isOrdinary = true := by
  unfold Flight.isQueued at h
  split at h
  · next after hr hw => exact ⟨after, hr, hw, h⟩
  · cases h

theorem eq_of_isWriting {f : Flight} (h : f.isWriting = true) : ∃ path snapshot after,
    f.request = .write path snapshot ∧ f.waiting = .writing after ∧ after.isOrdinary = true := by
  unfold Flight.isWriting at h
  split at h
  · next path snapshot after hr hw => exact ⟨path, snapshot, after, hr, hw, h⟩
  · cases h

/-- How the disk can deal with a write: it fails as it is told to, or because there is no text. -/
theorem concludeWrite_cases (s : Session) (snapshot : Snapshot) {result : Except Failure Unit}
    (hresult : ∀ e, result = .error e → toleratesWrite e = true) :
    (∃ text, snapshot.text = .ok text ∧ s.concludeWrite snapshot result =
      ({ s with file := .ok (.text text), marks := .writeOver true :: s.marks }, .ok ())) ∨
    ∃ e, toleratesWrite e = true ∧ s.concludeWrite snapshot result =
      ({ s with marks := .writeOver false :: s.marks }, .error e) := by
  cases result with
  | error e => exact .inr ⟨e, hresult e rfl, rfl⟩
  | ok u =>
    cases htext : snapshot.text with
    | ok text => exact .inl ⟨text, rfl, by simp only [concludeWrite, htext]⟩
    | error e => exact .inr ⟨e, toleratesWrite_text htext, by simp only [concludeWrite, htext]⟩

/-- The lock lets one call write at a time. -/
theorem sole_writer {s : Session} (hwrites : s.writers.length = if s.index.lock.held then 1 else 0)
    {l₁ l₂ : List Flight} {f : Flight} (hsplit : s.flights = l₁ ++ f :: l₂) {snapshot : Snapshot}
    (hwritten : f.written? = some snapshot) :
    s.writers = [snapshot] ∧ (l₁ ++ l₂).filterMap Flight.written? = [] := by
  have hwriters : s.writers =
      l₁.filterMap Flight.written? ++ snapshot :: l₂.filterMap Flight.written? := by
    rw [writers, hsplit, List.filterMap_append, List.filterMap_cons_some hwritten]
  rw [hwriters, List.length_append, List.length_cons] at hwrites
  have hle : (if s.index.lock.held then 1 else 0) ≤ 1 := by split <;> decide
  have h₁ : l₁.filterMap Flight.written? = [] := List.eq_nil_of_length_eq_zero (by omega)
  have h₂ : l₂.filterMap Flight.written? = [] := List.eq_nil_of_length_eq_zero (by omega)
  rw [hwriters, List.filterMap_append, h₁, h₂]
  exact ⟨rfl, rfl⟩

end Session

end LiveIndex.Index
