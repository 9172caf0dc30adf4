import LiveIndex.Proofs.Index.Alone
import LiveIndex.Proofs.Index.Stored
import LiveIndex.Proofs.Snapshot.Reopening

/-! The end of an index. A call that ends it saves what is unsaved and then empties it, beside all
other calls. As long as nothing changes the index while it is saved for the last time, and no write
fails from then on, what ends up in the file is the index from before it was emptied. -/

namespace LiveIndex.Index

/-- Whether a call is a save, or ends the index. -/
def Flight.isSave (f : Flight) : Bool :=
  match f.request, f.waiting with
  | .lock, .queued _ | .write .., .writing _ | .saves _, .draining => true
  | _, _ => false

/-- Whether a call writes the index before it empties it. -/
def Flight.isLast (f : Flight) : Bool :=
  match f.request, f.waiting with
  | .write .., .writing .drop => true
  | _, _ => false

/-- Whether an action belongs to the use of an index that is bound to its file, its end included:
the index is not bound again or loaded, nobody else writes the file, and a write fails only in ways
that a save lives with. -/
def Action.isUse : Action → Bool
  | .begin _ (.prepare ..) | .begin _ .load | .disturb _ => false
  | .resume _ (.error f) => toleratesWrite f
  | _ => true

/-- Whether an action changes what an index holds. -/
def isAlteredBy (s : Index) : Action → Bool
  | .begin _ (.batch entries) => !(s.upsertAll entries).2.2.isEmpty
  | .begin _ (.remove path) => !(s.removeFamily path).2.isEmpty
  | .add _ _ e => ((s.upsert e).2.change? e).isSome
  | .clear _ => true
  | _ => false

namespace Session

/-- Whether a call that ends the index has answered from one state to the next. -/
def dropsTo (s t : Session) : Bool :=
  match t.answers with
  | (_, .ok .nothing) :: earlier => earlier.length = s.answers.length
  | _ => false

def hasLast (s : Session) : Bool :=
  s.flights.any Flight.isLast

/-- Whether a write fails. -/
def fails (s : Session) (a : Action) : Bool :=
  (s.step a).marks = .writeOver false :: s.marks

end Session

/-- An index on its way to its end. `last` is the index as it is, or as it was before it was
emptied, for as long as nothing has changed it since. -/
structure Ending where
  session : Session
  last : Index
  dropped : Bool

namespace Ending

def start (s : Session) : Ending :=
  ⟨s, s.index, false⟩

def step (w : Ending) (a : Action) : Ending :=
  let t := w.session.step a
  if w.session.index.isAlteredBy a then ⟨t, t.index, false⟩
  else if w.session.dropsTo t then ⟨t, if w.dropped then w.last else w.session.index, true⟩
  else { w with session := t }

def run (w : Ending) (actions : List Action) : Ending :=
  actions.foldl step w

/-- What must not happen at the end: while the index is written for the last time nothing changes
it, and neither then nor after it was emptied does a write fail. -/
structure Spared (w : Ending) (a : Action) : Prop where
  unaltered : w.session.hasLast = true → w.session.index.isAlteredBy a = false
  unfailing : w.session.hasLast = true ∨ w.dropped = true → w.session.fails a = false

def Calm : Ending → List Action → Prop
  | _, [] => True
  | w, a :: actions => w.Spared a ∧ Calm (w.step a) actions

end Ending

namespace Session

/-- An index that is bound to a file, with no calls but saves and ends, of which the one that has
the lock is writing. -/
structure Tended (s : Session) : Prop where
  path : s.index.path.isSome = true
  saves : ∀ f ∈ s.flights, f.isSave = true
  writes : s.writers.length = if s.index.lock.held then 1 else 0

/-- What a step can do that changes nothing the index holds, unless it is emptied. -/
inductive Course (s t : Session) : Prop
  /-- Nothing is written, and a call may end. -/
  | rest (after : AfterSave) (drops : s.dropsTo t = !after.isOrdinary)
      (kept : t.index.kept = (s.index.left after).kept) (dirty : t.index.dirty = s.index.dirty)
      (clean : after.isOrdinary = false → s.index.dirty = false) (writers : t.writers = s.writers)
      (lasts : t.hasLast = true → s.hasLast = true) (file : t.file = s.file)
  /-- A write begins of the index as it is. -/
  | capture (drops : s.dropsTo t = false) (kept : t.index.kept = s.index.kept)
      (unsaved : s.index.dirty = true) (dirty : t.index.dirty = false)
      (writers : t.writers = [s.index.snapshot]) (file : t.file = s.file)
  /-- A write ends with the new text in place, and so does its call. -/
  | store (after : AfterSave) (drops : s.dropsTo t = !after.isOrdinary)
      (kept : t.index.kept = (s.index.left after).kept) (dirty : t.index.dirty = s.index.dirty)
      (last : after.isOrdinary = false → s.hasLast = true) (snapshot : Snapshot) (text : String)
      (writing : s.writers = [snapshot]) (written : snapshot.text = .ok text)
      (writers : t.writers = []) (file : t.file = .ok (.text text))
  /-- A write ends with the old text still there. -/
  | fail (after : AfterSave) (drops : s.dropsTo t = !after.isOrdinary)
      (kept : t.index.kept = (s.index.left after).kept) (dirty : t.index.dirty = true)
      (last : after.isOrdinary = false → s.hasLast = true) (writers : t.writers = [])
      (file : t.file = s.file) (marks : t.marks = .writeOver false :: s.marks)

/-- What a step does that changes what the index holds. -/
inductive Alteration (s t : Session) : Prop
  | touch (dirty : t.index.dirty = true) (lasts : t.hasLast = true → s.hasLast = true)
  | capture (dirty : t.index.dirty = false) (writers : t.writers = [t.index.snapshot])

variable {s t : Session}

theorem dropsTo_same (h : t.answers = s.answers) : s.dropsTo t = false := by
  unfold dropsTo
  split
  · next earlier ht =>
    have hlength : s.answers.length = earlier.length + 1 := by
      rw [← h, ht]
      rfl
    exact decide_eq_false (by omega)
  · rfl

theorem dropsTo_answered {id : Nat} {after : AfterSave} {saved : Bool}
    (h : t.answers = (id, .ok (after.answered saved)) :: s.answers) :
    s.dropsTo t = !after.isOrdinary := by
  unfold dropsTo
  rw [h]
  cases after with
  | drop => exact decide_eq_true rfl
  | _ => rfl

theorem written?_of_isLast {f : Flight} (h : f.isLast = true) : f.written? ≠ none := by
  unfold Flight.isLast at h
  unfold Flight.written?
  split at h
  · next hr _ =>
    rw [hr]
    simp
  · cases h

/-- A last write is a write. -/
theorem writers_of_hasLast (h : s.hasLast = true) : s.writers ≠ [] := by
  obtain ⟨f, hf, hlast⟩ := List.any_eq_true.mp h
  intro hnone
  obtain ⟨snapshot, hsnapshot⟩ := Option.ne_none_iff_exists'.mp (written?_of_isLast hlast)
  have hmem : snapshot ∈ s.writers := List.mem_filterMap.mpr ⟨f, hf, hsnapshot⟩
  rw [hnone] at hmem
  cases hmem

/-- A session as it is without a call that does not write. -/
structure Aside (s r : Session) : Prop where
  saves : ∀ f ∈ r.flights, f.isSave = true
  writers : r.writers = s.writers
  lasts : r.hasLast = true → s.hasLast = true
  file : r.file = s.file
  answers : r.answers = s.answers

theorem Tended.aside (h : s.Tended) {r : Session} (hflights : r.flights = s.flights)
    (hfile : r.file = s.file) (hanswers : r.answers = s.answers) : Aside s r := by
  refine ⟨?_, ?_, ?_, hfile, hanswers⟩
  · rw [hflights]
    exact h.saves
  · rw [writers, hflights, writers]
  · rw [hasLast, hflights, hasLast]
    exact id

/-- What stays of an index where only its lock changes hands. -/
structure Held (i j : Index) : Prop where
  kept : j.kept = i.kept
  dirty : j.dirty = i.dirty
  path : j.path = i.path

variable {r : Session} {i : Index} {effects : List Effect}

/-- A call that is over leaves the others as they are. -/
theorem course_done (after : AfterSave) (saved : Bool) (hs : s.Tended) (hr : Aside s r)
    (hi : Held s.index i)
    (hlock : (effects.foldl (fun l e => e.onLock l) i.lock).held = s.index.lock.held)
    (hclean : after.isOrdinary = false → s.index.dirty = false) (id : Nat) (ticket : Option Nat) :
    (r.settle id ticket (.done (i.left after) effects (after.answered saved))).Tended ∧
      Course s (r.settle id ticket (.done (i.left after) effects (after.answered saved))) := by
  obtain ⟨t, ht⟩ : ∃ t, t = r.settle id ticket (.done (i.left after) effects
      (after.answered saved)) := ⟨_, rfl⟩
  have hindex : t.index = (i.left after).withLock
      (effects.foldl (fun l e => e.onLock l) i.lock) := by
    rw [ht]
    change (r.change (i.left after) effects).index = _
    rw [change_index, left_lock]
  have hflights : t.flights = r.flights := by
    rw [ht]
    exact change_flights ..
  have hwriters : t.writers = s.writers := by
    rw [writers, hflights]
    exact hr.writers
  have hanswers : t.answers = (id, .ok (after.answered saved)) :: s.answers := by
    rw [ht, ← hr.answers, ← r.change_answers (i.left after) effects]
    rfl
  rw [← ht]
  refine ⟨⟨?_, ?_, ?_⟩, .rest after (dropsTo_answered hanswers) ?_ ?_ hclean hwriters ?_ ?_⟩
  · rw [hindex]
    change (i.left after).path.isSome = true
    rw [left_path, hi.path]
    exact hs.path
  · rw [hflights]
    exact hr.saves
  · rw [hwriters, hindex, withLock_lock, hlock]
    exact hs.writes
  · rw [hindex]
    exact kept_left hi.kept after
  · rw [hindex]
    exact (left_dirty i after).trans hi.dirty
  · rw [hasLast, hflights]
    exact hr.lasts
  · rw [ht, ← hr.file]
    exact change_file ..

/-- How a save begins of an index that has changed: it writes the index as it is, or it waits. -/
inductive Opens (s t : Session) (i : Index) : Prop
  | writes (dirty : t.index.dirty = false) (writers : t.writers = [i.snapshot])
  | waits (dirty : t.index.dirty = true) (writers : t.writers = s.writers)
      (lasts : t.hasLast = true → s.hasLast = true)

theorem opens_queued (hs : s.Tended) (hr : Aside s r) (hpath : i.path.isSome = true)
    (hlock : i.lock = s.index.lock) (hd : i.dirty = true) (hquiet : ∀ e ∈ effects, e ≠ .unlock)
    (id : Nat) (ticket : Option Nat) (ht : t = r.settle id ticket (.ask i effects .lock
      (.queued after))) :
    t.Tended ∧ t.index.kept = i.kept ∧ t.file = s.file ∧ t.answers = s.answers ∧ Opens s t i := by
  obtain ⟨p, hp⟩ := Option.isSome_iff_exists.mp hpath
  have hfile : (r.change i effects).file = s.file := (change_file ..).trans hr.file
  have hanswers : (r.change i effects).answers = s.answers := (change_answers ..).trans hr.answers
  have hflights : (r.change i effects).flights = r.flights := change_flights ..
  have hpark (f : Flight) (hf : f.isSave = true) :
      ∀ g ∈ (r.change i effects).flights ++ [f], g.isSave = true := by
    intro g hg
    rw [hflights] at hg
    rcases List.mem_append.mp hg with hg | hg
    · exact hr.saves g hg
    · rw [List.mem_singleton.mp hg]
      exact hf
  rw [settle_queued r id ticket hp hd hquiet after] at ht
  split at ht
  · next hfree =>
    simp only [Lock.isFree, Bool.and_eq_true, Bool.not_eq_true'] at hfree
    have hnone : s.writers = [] := by
      have hlength := hs.writes
      rw [← hlock, hfree.1] at hlength
      exact List.eq_nil_of_length_eq_zero hlength
    have hwriters : t.writers = [i.snapshot] := by
      have hsplit : t.writers = (r.change i effects).writers ++ [i.snapshot] := by
        rw [ht]
        exact List.filterMap_append
      rw [hsplit, writers, hflights]
      change r.writers ++ _ = _
      rw [hr.writers, hnone]
      rfl
    refine ⟨⟨?_, ?_, ?_⟩, ?_, ?_, ?_, .writes ?_ hwriters⟩
    · rw [ht]
      exact hpath
    · rw [ht]
      exact hpark _ rfl
    · rw [hwriters, ht]
      rfl
    · rw [ht]
      rfl
    · rw [ht]
      exact hfile
    · rw [ht]
      exact hanswers
    · rw [ht]
      rfl
  · have hwriters : t.writers = s.writers := by
      have hsplit : t.writers = (r.change i effects).writers ++ [] := by
        rw [ht]
        exact List.filterMap_append
      rw [hsplit, List.append_nil, writers, hflights]
      exact hr.writers
    have hlasts : t.hasLast = true → s.hasLast = true := by
      intro hlast
      refine hr.lasts ?_
      have hsplit : t.hasLast = ((r.change i effects).hasLast || false) := by
        rw [ht]
        exact List.any_append
      rw [hsplit, Bool.or_false, hasLast, hflights] at hlast
      exact hlast
    refine ⟨⟨?_, ?_, ?_⟩, ?_, ?_, ?_, .waits ?_ hwriters hlasts⟩
    · rw [ht]
      exact hpath
    · rw [ht]
      exact hpark _ rfl
    · rw [hwriters, ht]
      change _ = if i.lock.held then 1 else 0
      rw [hlock]
      exact hs.writes
    · rw [ht]
      rfl
    · rw [ht]
      exact hfile
    · rw [ht]
      exact hanswers
    · rw [ht]
      exact hd

/-- A save of the index as it is, which may be the last one. -/
theorem course_save (hs : s.Tended) (hr : Aside s r) (hi : Held s.index i)
    (hlock : i.lock = s.index.lock) (hquiet : ∀ e ∈ effects, e ≠ .unlock) (after : AfterSave)
    (id : Nat) (ticket : Option Nat) :
    (r.settle id ticket ((i.beginSave after).after effects)).Tended ∧
      Course s (r.settle id ticket ((i.beginSave after).after effects)) := by
  have hpath : i.path.isSome = true := by
    rw [hi.path]
    exact hs.path
  cases hd : i.dirty with
  | true =>
    have hwork : (i.beginSave after).after effects = .ask i effects .lock (.queued after) := by
      rw [beginSave_dirty hpath hd, Stretch.ask, Stretch.after, List.append_nil]
      rfl
    have hunsaved : s.index.dirty = true := hi.dirty.symm.trans hd
    rw [hwork]
    obtain ⟨htended, hkept, hfile, hanswers, hopens⟩ :=
      opens_queued hs hr hpath hlock hd hquiet id ticket rfl
    have hkept := hkept.trans hi.kept
    refine ⟨htended, ?_⟩
    cases hopens with
    | writes hdirty hwriters =>
      rw [snapshot_of_kept hi.kept] at hwriters
      exact .capture (dropsTo_same hanswers) hkept hunsaved hdirty hwriters hfile
    | waits hdirty hwriters hlasts =>
      exact .rest .answer (dropsTo_same hanswers) hkept (hdirty.trans hunsaved.symm)
        (fun h => Bool.noConfusion h) hwriters hlasts hfile
  | false =>
    have hwork : (i.beginSave after).after effects =
        .done (i.left after) effects (after.answered false) := by
      rw [beginSave_clean hd, afterSave_eq, Stretch.done, Stretch.after, List.append_nil]
      rfl
    rw [hwork]
    refine course_done _ _ hs hr hi ?_ (fun _ => hi.dirty.symm.trans hd) id ticket
    rw [foldl_onLock hquiet, hlock]

theorem flights_without {f : Flight} {id : Nat} (hf : s.flights.find? (·.id = id) = some f) :
    ∃ l₁ l₂, s.flights = l₁ ++ f :: l₂ ∧ (s.without f).flights = l₁ ++ l₂ :=
  eraseP_of_find? hf

theorem mem_flights_without {f g : Flight} (hg : g ∈ (s.without f).flights) : g ∈ s.flights :=
  List.mem_of_mem_eraseP hg

theorem Tended.without (hs : s.Tended) {f : Flight} {id : Nat}
    (hf : s.flights.find? (·.id = id) = some f) (hwritten : f.written? = none) :
    Aside s (s.without f) := by
  obtain ⟨l₁, l₂, hsplit, hrest⟩ := flights_without hf
  refine ⟨fun g hg => hs.saves g (mem_flights_without hg), ?_, ?_, rfl, rfl⟩
  · rw [writers, hrest, writers, hsplit, List.filterMap_append, List.filterMap_append,
      List.filterMap_cons_none hwritten]
  · intro hlast
    obtain ⟨g, hg, hglast⟩ := List.any_eq_true.mp hlast
    exact List.any_eq_true.mpr ⟨g, mem_flights_without hg, hglast⟩

theorem course_granted (hs : s.Tended) {f : Flight} {id : Nat}
    (hf : s.flights.find? (·.id = id) = some f) (hrequest : f.request = .lock)
    (hwaiting : f.waiting = .queued after) (result : Except Failure Unit) :
    (s.wake f result).Tended ∧ Course s (s.wake f result) := by
  have hwritten : f.written? = none := by rw [Flight.written?, hrequest]
  have haside := hs.without hf hwritten
  obtain ⟨p, hp⟩ := Option.isSome_iff_exists.mp hs.path
  simp only [wake, hrequest, hwaiting]
  split
  · next hfree =>
    have hheld : s.index.lock.held = false := by
      simp only [Bool.and_eq_true, Bool.not_eq_true'] at hfree
      exact hfree.1
    obtain ⟨i, hi⟩ : ∃ i, i = s.index.withLock (s.index.lock.enter f.id) := ⟨_, rfl⟩
    have hsame : Held s.index i := by
      rw [hi]
      exact ⟨rfl, rfl, rfl⟩
    rw [← hi]
    cases hd : i.dirty with
    | true =>
      have hnone : (s.without f).writers = [] := by
        have hlength := hs.writes
        rw [hheld] at hlength
        exact haside.writers.trans (List.eq_nil_of_length_eq_zero hlength)
      rw [lockTaken_dirty (hsame.path.trans hp) hd after]
      obtain ⟨t, ht⟩ : ∃ t, t = (s.without f).settle f.id f.ticket
        (.ask { i with dirty := false } [] (.write p i.snapshot) (.writing after)) := ⟨_, rfl⟩
      have hwriters : t.writers = [i.snapshot] := by
        have hsplit : t.writers = (s.without f).writers ++ [i.snapshot] := by
          rw [ht]
          exact List.filterMap_append
        rw [hsplit, hnone]
        rfl
      rw [← ht]
      refine ⟨⟨?_, ?_, ?_⟩, .capture ?_ ?_ (hsame.dirty.symm.trans hd) ?_ ?_ ?_⟩
      · rw [ht]
        exact (congrArg Option.isSome hsame.path).trans hs.path
      · intro g hg
        rw [ht] at hg
        rcases List.mem_append.mp hg with hg | hg
        · exact haside.saves g hg
        · rw [List.mem_singleton.mp hg]
          rfl
      · rw [hwriters, ht, hi]
        rfl
      · exact dropsTo_same (by rw [ht]; rfl)
      · rw [ht]
        exact hsame.kept
      · rw [ht]
        rfl
      · rw [hwriters, snapshot_of_kept hsame.kept]
      · rw [ht]
        rfl
    | false =>
      -- Another call has saved the index in the meantime.
      rw [lockTaken_clean hd after, afterSave_eq]
      refine course_done _ _ hs haside hsame ?_ (fun _ => hsame.dirty.symm.trans hd) f.id f.ticket
      exact hheld.symm
  · exact ⟨hs, .rest .answer (dropsTo_same rfl) rfl rfl (fun h => Bool.noConfusion h) rfl
        (fun h => h) rfl⟩

theorem course_written (hs : s.Tended) {f : Flight} {id : Nat}
    (hf : s.flights.find? (·.id = id) = some f) {path : String} {snapshot : Snapshot}
    (hrequest : f.request = .write path snapshot) (hwaiting : f.waiting = .writing after)
    {result : Except Failure Unit} (hresult : ∀ e, result = .error e → toleratesWrite e = true) :
    (s.wake f result).Tended ∧ Course s (s.wake f result) := by
  obtain ⟨l₁, l₂, hsplit, hrest⟩ := flights_without hf
  have hwritten : f.written? = some snapshot := by rw [Flight.written?, hrequest]
  obtain ⟨hwriting, hothers⟩ := sole_writer hs.writes hsplit hwritten
  have hnone : (s.without f).writers = [] := by rw [writers, hrest, hothers]
  have hlast : after.isOrdinary = false → s.hasLast = true := by
    intro hafter
    refine List.any_eq_true.mpr ⟨f, List.mem_of_find?_eq_some hf, ?_⟩
    rw [Flight.isLast, hrequest, hwaiting]
    cases after with
    | drop => rfl
    | _ => cases hafter
  have htended {t : Session} (hflights : t.flights = (s.without f).flights)
      (hpath : t.index.path = s.index.path) (hheld : t.index.lock.held = false) :
      t.Tended ∧ t.writers = [] := by
    have hwriters : t.writers = [] := by
      rw [writers, hflights]
      exact hnone
    refine ⟨⟨?_, ?_, ?_⟩, hwriters⟩
    · rw [hpath]
      exact hs.path
    · rw [hflights]
      exact fun g hg => hs.saves g (mem_flights_without hg)
    · rw [hwriters, hheld]
      rfl
  simp only [wake, hrequest, hwaiting]
  rcases concludeWrite_cases (s.without f) snapshot hresult with
    ⟨text, htext, hconclude⟩ | ⟨e, he, hconclude⟩
  · rw [hconclude]
    simp only [written, afterSave_eq]
    obtain ⟨ht, hwriters⟩ := htended (t := settle { s.without f with
      file := .ok (.text text), marks := .writeOver true :: (s.without f).marks } f.id f.ticket
      (.done (s.index.left after) [.unlock] (after.answered true))) rfl (left_path ..) rfl
    exact ⟨ht, .store after (dropsTo_answered rfl) rfl (left_dirty ..) hlast snapshot text hwriting
      htext hwriters rfl⟩
  · rw [hconclude]
    simp only [written, he, if_true, afterSave_eq]
    obtain ⟨ht, hwriters⟩ := htended (t := settle { s.without f with
      marks := .writeOver false :: (s.without f).marks } f.id f.ticket
      (.done (left { s.index with dirty := true } after)
        [ .log .error ("Failed to save index to " ++ showPath s.index.path ++ ": " ++ e.message),
          .unlock ] (after.answered false))) rfl (left_path ..) rfl
    have hkept : (left { s.index with dirty := true } after).kept = (s.index.left after).kept :=
      kept_left (s := { s.index with dirty := true }) (t := s.index) rfl after
    exact ⟨ht, .fail after (dropsTo_answered rfl) hkept (left_dirty ..) hlast hwriters rfl rfl⟩

theorem isSave_cases {f : Flight} (h : f.isSave = true) :
    (f.request = .lock ∧ ∃ after, f.waiting = .queued after) ∨
      (∃ path snapshot after, f.request = .write path snapshot ∧ f.waiting = .writing after) ∨
      ∃ tickets, f.request = .saves tickets ∧ f.waiting = .draining := by
  unfold Flight.isSave at h
  split at h
  · next after hr hw => exact .inl ⟨hr, after, hw⟩
  · next path snapshot after hr hw => exact .inr (.inl ⟨path, snapshot, after, hr, hw⟩)
  · next tickets hr hw => exact .inr (.inr ⟨tickets, hr, hw⟩)
  · cases h

theorem course_wake (hs : s.Tended) {f : Flight} {id : Nat}
    (hf : s.flights.find? (·.id = id) = some f) {result : Except Failure Unit}
    (hresult : ∀ e, result = .error e → toleratesWrite e = true) :
    (s.wake f result).Tended ∧ Course s (s.wake f result) := by
  rcases isSave_cases (hs.saves f (List.mem_of_find?_eq_some hf)) with
    ⟨hr, after, hw⟩ | ⟨path, snapshot, after, hr, hw⟩ | ⟨tickets, hr, hw⟩
  · exact course_granted hs hf hr hw result
  · exact course_written hs hf hr hw hresult
  · have hwritten : f.written? = none := by rw [Flight.written?, hr]
    simp only [wake, hr, hw]
    split
    · exact ⟨hs, .rest .answer (dropsTo_same rfl) rfl rfl (fun h => Bool.noConfusion h) rfl
        (fun h => h) rfl⟩
    · -- The saves that were waited for are over.
      have hquiet : ∀ e ∈ ([] : List Effect), e ≠ .unlock := fun _ h => absurd h List.not_mem_nil
      exact course_save hs (hs.without hf hwritten) ⟨rfl, rfl, rfl⟩ rfl hquiet .drop f.id f.ticket

/-- A step that no save and no end has to do with leaves everything where it is. -/
theorem course_rest (hs : s.Tended) (hi : Held s.index t.index)
    (hlock : t.index.lock = s.index.lock) (hflights : t.flights = s.flights)
    (hfile : t.file = s.file) (hanswers : t.answers = s.answers) : t.Tended ∧ Course s t := by
  have haside := hs.aside hflights hfile hanswers
  refine ⟨⟨?_, haside.saves, ?_⟩, .rest .answer (dropsTo_same hanswers) hi.kept hi.dirty
    (fun h => Bool.noConfusion h) haside.writers haside.lasts hfile⟩
  · rw [hi.path]
    exact hs.path
  · rw [haside.writers, hlock]
    exact hs.writes

theorem course_destroy (hs : s.Tended) :
    (s.launch none s.index.beginDestroy).Tended ∧
      Course s (s.launch none s.index.beginDestroy) := by
  have haside : Aside s { s with nextId := s.nextId + 1 } := hs.aside rfl rfl rfl
  have hquiet : ∀ e ∈ s.index.saveTimer.toList.map Effect.disarm, e ≠ .unlock := by
    intro e he
    obtain ⟨ticket, -, rfl⟩ := List.mem_map.mp he
    simp
  unfold beginDestroy
  dsimp only
  split
  · exact course_save (i := { s.index with saveTimer := none }) hs haside ⟨rfl, rfl, rfl⟩ rfl hquiet
      .drop s.nextId none
  · -- The running saves are waited for; nothing else happens yet.
    obtain ⟨t, ht⟩ : ∃ t, t = s.launch none (.ask { s.index with saveTimer := none }
        (s.index.saveTimer.toList.map Effect.disarm) (.saves s.index.saves) .draining) := ⟨_, rfl⟩
    obtain ⟨c, hc⟩ : ∃ c, c = { s with nextId := s.nextId + 1 }.change
        { s.index with saveTimer := none } (s.index.saveTimer.toList.map Effect.disarm) := ⟨_, rfl⟩
    have hpark : t = c.park ⟨s.nextId, none, .saves s.index.saves, .draining⟩ := by
      rw [ht, hc]
      rfl
    have hflights : c.flights = s.flights := by
      rw [hc]
      exact change_flights ..
    have hindex : c.index = { s.index with saveTimer := none } := by
      rw [hc, change_index, foldl_onLock hquiet]
      rfl
    have hwriters : t.writers = s.writers := by
      have hsplit : t.writers = c.writers ++ [] := by
        rw [hpark]
        exact List.filterMap_append
      rw [hsplit, List.append_nil, writers, hflights, writers]
    have hlasts : t.hasLast = true → s.hasLast = true := by
      intro hlast
      have hsplit : t.hasLast = (c.hasLast || false) := by
        rw [hpark]
        exact List.any_append
      rw [hsplit, Bool.or_false, hasLast, hflights] at hlast
      exact hlast
    have htindex : t.index = { s.index with saveTimer := none } := by
      rw [hpark, park_index, hindex]
    rw [← ht]
    refine ⟨⟨?_, ?_, ?_⟩, .rest .answer (dropsTo_same ?_) ?_ ?_
      (fun h => Bool.noConfusion h) hwriters hlasts ?_⟩
    · rw [htindex]
      exact hs.path
    · intro g hg
      rw [hpark] at hg
      rcases List.mem_append.mp hg with hg | hg
      · rw [hflights] at hg
        exact hs.saves g hg
      · rw [List.mem_singleton.mp hg]
        rfl
    · rw [hwriters, htindex]
      exact hs.writes
    · rw [hpark, hc]
      exact change_answers ..
    · rw [htindex]
      rfl
    · rw [htindex]
    · rw [hpark, hc]
      exact change_file ..

theorem step_course (hs : s.Tended) {a : Action} (ha : a.isUse = true)
    (hsame : s.index.isAlteredBy a = false) : (s.step a).Tended ∧ Course s (s.step a) := by
  have hnone : ∀ e ∈ ([] : List Effect), e ≠ .unlock := fun _ h => absurd h List.not_mem_nil
  have haside : Aside s { s with nextId := s.nextId + 1 } := hs.aside rfl rfl rfl
  have hrest : s.Tended ∧ Course s s := course_rest hs ⟨rfl, rfl, rfl⟩ rfl rfl rfl rfl
  cases a with
  | begin now call =>
    cases call with
    | save => exact course_save hs haside ⟨rfl, rfl, rfl⟩ rfl hnone .answer s.nextId none
    | batch entries =>
      have hempty : (s.index.upsertAll entries).2.2.isEmpty = true := by
        simpa [isAlteredBy] using hsame
      have hwork : s.index.begin now (.batch entries) =
          .done s.index [] (.summary (s.index.upsertAll entries).2.1) := by
        unfold begin beginBatch
        dsimp only
        rw [if_pos hempty, upsertAll_unchanged (List.isEmpty_iff.mp hempty)]
      rw [step, hwork]
      exact course_done (.summary (s.index.upsertAll entries).2.1) false hs haside
        ⟨rfl, rfl, rfl⟩ rfl (fun h => Bool.noConfusion h) s.nextId none
    | remove path =>
      have hempty : (s.index.removeFamily path).2.isEmpty = true := by
        simpa [isAlteredBy] using hsame
      have hwork : s.index.begin now (.remove path) = .done s.index [] (.count 0) := by
        unfold begin beginRemove
        dsimp only
        rw [if_pos hempty, removeFamily_unchanged (List.isEmpty_iff.mp hempty)]
      rw [step, hwork]
      exact course_done (.count 0) false hs haside ⟨rfl, rfl, rfl⟩ rfl
        (fun h => Bool.noConfusion h) s.nextId none
    | destroy => exact course_destroy hs
    | prepare root path => cases ha
    | load => cases ha
  | add now timed e =>
    have hchange : (s.index.upsert e).2.change? e = none := by
      simpa [isAlteredBy] using hsame
    have hadd : s.index.add now timed e = (s.index, []) := by
      simp only [add, hchange, upsert_unchanged hchange]
    rw [step, hadd]
    exact hrest
  | clear now => cases hsame
  | search text exact limit =>
    obtain ⟨finder, hindex⟩ := search_index s.index text exact limit
    rw [step, hindex]
    exact course_rest hs ⟨rfl, rfl, rfl⟩ rfl rfl rfl rfl
  | query text limit =>
    obtain ⟨finder, hindex⟩ := query_index s.index text limit
    rw [step, hindex]
    exact course_rest hs ⟨rfl, rfl, rfl⟩ rfl rfl rfl rfl
  | listen l =>
    simp only [step, Index.listen]
    split
    · exact hrest
    · exact course_rest hs ⟨rfl, rfl, rfl⟩ rfl rfl rfl rfl
  | unlisten l => exact course_rest hs ⟨rfl, rfl, rfl⟩ rfl rfl rfl rfl
  | disturb file => cases ha
  | ring ticket =>
    simp only [step]
    split
    · exact course_rest hs ⟨rfl, rfl, rfl⟩ rfl rfl rfl rfl
    · exact hrest
  | startSave ticket =>
    simp only [step]
    split
    · have hdue : Aside s { s with due := s.due.erase ticket, nextId := s.nextId + 1 } :=
        hs.aside rfl rfl rfl
      exact course_save hs hdue ⟨rfl, rfl, rfl⟩ rfl hnone .answer s.nextId (some ticket)
    · exact hrest
  | resume id result =>
    simp only [step]
    split
    · next f hf =>
      refine course_wake hs hf ?_
      rintro e rfl
      exact ha
    · exact hrest
  | noteOver ticket =>
    simp only [step]
    split
    · exact course_rest hs ⟨rfl, rfl, rfl⟩ rfl rfl rfl rfl
    · exact hrest

/-- What is published is written at once, or will be. -/
theorem alteration_publish (hs : s.Tended) {i : Index} (hpath : i.path = s.index.path)
    (hlock : i.lock = s.index.lock) (now : Int) (changes : List Notice) (after : AfterSave) :
    (s.launch none (i.publish now changes after)).Tended ∧
      Alteration s (s.launch none (i.publish now changes after)) := by
  have hp : i.path.isSome = true := by
    rw [hpath]
    exact hs.path
  have haside : Aside s { s with nextId := s.nextId + 1 } := hs.aside rfl rfl rfl
  rw [publish_bound hp now changes after]
  obtain ⟨htended, hkept, -, -, hopens⟩ := opens_queued (i := i.bump now) hs haside hp hlock rfl
    ((i.bump now).deliveries_quiet changes) s.nextId none rfl
  refine ⟨htended, ?_⟩
  cases hopens with
  | writes hdirty hwriters =>
    rw [← snapshot_of_kept hkept] at hwriters
    exact .capture hdirty hwriters
  | waits hdirty _ hlasts => exact .touch hdirty hlasts

/-- What adding an entry does that says something new. -/
theorem add_altered (i : Index) (now : Int) (timed : Bool) {e : Entry}
    (h : ((i.upsert e).2.change? e).isSome = true) :
    SamePlace i (i.add now timed e).1 ∧ (i.add now timed e).1.dirty = true ∧
      ∀ f ∈ (i.add now timed e).2, f ≠ .unlock := by
  obtain ⟨notice, hnotice⟩ := Option.isSome_iff_exists.mp h
  have hplace := samePlace_upsert i e
  unfold add
  simp only [hnotice]
  cases timed with
  | false =>
    refine ⟨⟨hplace.path, hplace.lock⟩, rfl, ?_⟩
    intro f hf
    exact deliveries_quiet _ _ f hf
  | true =>
    refine ⟨⟨hplace.path, hplace.lock⟩, rfl, ?_⟩
    intro f hf
    -- A timer is set and perhaps another one stopped, and listeners are told.
    rcases List.mem_append.mp hf with hf | hf
    · rcases List.mem_append.mp hf with hf | hf
      · obtain ⟨ticket, -, rfl⟩ := List.mem_map.mp hf
        simp
      · rw [List.mem_singleton.mp hf]
        simp
    · exact deliveries_quiet _ _ f hf

theorem step_alteration (hs : s.Tended) {a : Action} (h : s.index.isAlteredBy a = true) :
    (s.step a).Tended ∧ Alteration s (s.step a) := by
  have htouch {t : Session} (hpath : t.index.path = s.index.path)
      (hlock : t.index.lock = s.index.lock) (hflights : t.flights = s.flights)
      (hdirty : t.index.dirty = true) : t.Tended ∧ Alteration s t := by
    refine ⟨⟨?_, ?_, ?_⟩, .touch hdirty ?_⟩
    · rw [hpath]
      exact hs.path
    · rw [hflights]
      exact hs.saves
    · rw [writers, hflights, hlock]
      exact hs.writes
    · rw [hasLast, hflights, hasLast]
      exact id
  cases a with
  | begin now call =>
    cases call with
    | batch entries =>
      have hplace := samePlace_upsertAll s.index entries
      have hchanged : ¬(s.index.upsertAll entries).2.2.isEmpty = true := by
        simpa [isAlteredBy] using h
      have hwork : s.index.begin now (.batch entries) = (s.index.upsertAll entries).1.publish now
          (s.index.upsertAll entries).2.2 (.summary (s.index.upsertAll entries).2.1) :=
        if_neg hchanged
      rw [step, hwork]
      exact alteration_publish hs hplace.path hplace.lock now _ _
    | remove path =>
      have hplace := samePlace_removeFamily s.index path
      have hchanged : ¬(s.index.removeFamily path).2.isEmpty = true := by
        simpa [isAlteredBy] using h
      have hwork : s.index.begin now (.remove path) = (s.index.removeFamily path).1.publish now
          ((s.index.removeFamily path).2.map fun e => ⟨.remove, e.path, none⟩)
          (.count (s.index.removeFamily path).2.length) := if_neg hchanged
      rw [step, hwork]
      exact alteration_publish hs hplace.path hplace.lock now _ _
    | _ => cases h
  | add now timed e =>
    obtain ⟨hplace, hdirty, hquiet⟩ := add_altered s.index now timed h
    have hindex : (s.step (.add now timed e)).index = (s.index.add now timed e).1 := by
      rw [step, change_index, foldl_onLock hquiet]
      rfl
    refine htouch ?_ ?_ (change_flights ..) ?_
    · rw [hindex]
      exact hplace.path
    · rw [hindex]
      exact hplace.lock
    · rw [hindex]
      exact hdirty
  | clear now => exact htouch rfl rfl rfl rfl
  | _ => cases h

end Session

namespace Ending

/-- What is in the file is the index as it is, or as it was before it was emptied; what is being
written is that as well, unless a change is marked. An emptied index has no mark. -/
structure Sound (w : Ending) : Prop where
  tended : w.session.Tended
  consistent : w.session.index.Consistent
  lasting : w.last.Consistent
  same : w.dropped = false → w.session.index.kept = w.last.kept
  clean : w.session.hasLast = true ∨ w.dropped = true → w.session.index.dirty = false
  writing : w.session.index.dirty = false →
    ∀ snapshot ∈ w.session.writers, snapshot = w.last.snapshot
  stored : w.session.index.dirty = false → w.session.writers = [] → Holds w.session.file w.last

variable {w : Ending} {a : Action}

/-- What a step that alters nothing leaves of an index that may be emptied by it. -/
theorem step_unaltered (hw : w.Sound) (h : w.session.index.isAlteredBy a = false) :
    (w.step a).session = w.session.step a ∧ (w.step a).last.kept = w.last.kept ∧
      (w.step a).last.Consistent ∧
      (w.step a).dropped = (w.dropped || w.session.dropsTo (w.session.step a)) := by
  unfold step
  dsimp only
  rw [h, if_neg Bool.false_ne_true]
  cases hdrops : w.session.dropsTo (w.session.step a) with
  | false =>
    rw [if_neg Bool.false_ne_true, Bool.or_false]
    exact ⟨rfl, rfl, hw.lasting, rfl⟩
  | true =>
    rw [if_pos rfl, Bool.or_true]
    cases hdropped : w.dropped with
    | true => exact ⟨rfl, rfl, hw.lasting, rfl⟩
    | false => exact ⟨rfl, hw.same hdropped, hw.consistent, rfl⟩

theorem Sound.altered (hw : w.Sound) (hspared : w.Spared a)
    (h : w.session.index.isAlteredBy a = true) : (w.step a).Sound := by
  have hstep : w.step a = ⟨w.session.step a, (w.session.step a).index, false⟩ := by
    unfold step
    exact if_pos h
  obtain ⟨htended, halteration⟩ := Session.step_alteration hw.tended h
  have hconsistent := Session.consistent_step hw.consistent a
  have hearlier : w.session.hasLast = false := by
    cases hlast : w.session.hasLast with
    | false => rfl
    | true =>
      rw [hspared.unaltered hlast] at h
      cases h
  rw [hstep]
  cases halteration with
  | touch hdirty hlasts =>
    have hmarked : (w.session.step a).index.dirty ≠ false := by simp [hdirty]
    refine ⟨htended, hconsistent, hconsistent, fun _ => rfl, ?_, fun hd => absurd hd hmarked,
      fun hd => absurd hd hmarked⟩
    rintro (hlast | hdropped)
    · rw [hlasts hlast] at hearlier
      cases hearlier
    · cases hdropped
  | capture hdirty hwriters =>
    refine ⟨htended, hconsistent, hconsistent, fun _ => rfl, fun _ => hdirty, ?_, ?_⟩
    · intro _ snapshot hmem
      rw [hwriters] at hmem
      exact List.mem_singleton.mp hmem
    · intro _ hnone
      rw [hwriters] at hnone
      cases hnone

section Courses

variable {t : Session}

/-- An index that is emptied after a step was so before, or the call that ends empties it. -/
theorem dropped_cases {after : AfterSave} (hdrops : w.session.dropsTo t = !after.isOrdinary)
    (h : (w.dropped || w.session.dropsTo t) = true) :
    w.dropped = true ∨ after.isOrdinary = false := by
  rw [hdrops, Bool.or_eq_true, Bool.not_eq_true'] at h
  exact h

/-- An index that is not emptied is still what it was. -/
theorem Sound.same_after (hw : w.Sound) (hcourse : w.session.Course t)
    (hnot : (w.dropped || w.session.dropsTo t) = false) : t.index.kept = w.last.kept := by
  have hsame (after : AfterSave) (hdrops : w.session.dropsTo t = !after.isOrdinary)
      (hkept : t.index.kept = (w.session.index.left after).kept) : t.index.kept = w.last.kept := by
    rw [hdrops, Bool.or_eq_false_iff, Bool.not_eq_false'] at hnot
    rw [hkept, left_of_ordinary _ hnot.2]
    exact hw.same hnot.1
  cases hcourse with
  | rest after hdrops hkept => exact hsame after hdrops hkept
  | capture hdrops hkept => exact hsame .answer hdrops hkept
  | store after hdrops hkept => exact hsame after hdrops hkept
  | fail after hdrops hkept => exact hsame after hdrops hkept

/-- An emptied index gets no mark, unless a write fails. -/
theorem Sound.clean_after (hw : w.Sound) (hspared : w.Spared a)
    (hcourse : w.session.Course (w.session.step a))
    (h : (w.session.step a).hasLast = true ∨
      (w.dropped || w.session.dropsTo (w.session.step a)) = true) :
    (w.session.step a).index.dirty = false := by
  cases hcourse with
  | rest after hdrops _ hdirty hclean _ hlasts _ =>
    rcases h with hlast | hthis
    · exact hdirty.trans (hw.clean (.inl (hlasts hlast)))
    · rcases dropped_cases hdrops hthis with hbefore | hafter
      · exact hdirty.trans (hw.clean (.inr hbefore))
      · exact hdirty.trans (hclean hafter)
  | capture _ _ _ hdirty _ _ => exact hdirty
  | store after hdrops _ hdirty hlast _ _ _ _ hwriters _ =>
    rcases h with hthis | hthis
    · exact absurd hwriters (Session.writers_of_hasLast hthis)
    · rcases dropped_cases hdrops hthis with hbefore | hafter
      · exact hdirty.trans (hw.clean (.inr hbefore))
      · exact hdirty.trans (hw.clean (.inl (hlast hafter)))
  | fail after hdrops _ _ hlast hwriters _ hmarks =>
    have hfails : w.session.fails a = true := decide_eq_true hmarks
    have hunfailing (hor : w.session.hasLast = true ∨ w.dropped = true) : False := by
      rw [hspared.unfailing hor] at hfails
      cases hfails
    rcases h with hthis | hthis
    · exact absurd hwriters (Session.writers_of_hasLast hthis)
    · rcases dropped_cases hdrops hthis with hbefore | hafter
      · exact (hunfailing (.inr hbefore)).elim
      · exact (hunfailing (.inl (hlast hafter))).elim

/-- What is being written is the index as it was before it was emptied. -/
theorem Sound.writing_after (hw : w.Sound) (hcourse : w.session.Course t)
    (hclean : t.index.dirty = false) :
    ∀ snapshot ∈ t.writers, snapshot = w.last.snapshot := by
  cases hcourse with
  | rest after _ _ hdirty _ hwriters _ _ =>
    rw [hwriters]
    exact hw.writing (hdirty.symm.trans hclean)
  | capture _ _ hunsaved _ hwriters _ =>
    -- A marked change is one of an index that was not emptied.
    have hnot : w.dropped = false := by
      cases hdropped : w.dropped with
      | false => rfl
      | true =>
        rw [hw.clean (.inr hdropped)] at hunsaved
        cases hunsaved
    intro snapshot hmem
    rw [hwriters] at hmem
    rw [List.mem_singleton.mp hmem]
    exact snapshot_of_kept (hw.same hnot)
  | store _ _ _ _ _ _ _ _ _ hwriters _ =>
    intro snapshot hmem
    rw [hwriters] at hmem
    cases hmem
  | fail _ _ _ _ _ hwriters _ _ =>
    intro snapshot hmem
    rw [hwriters] at hmem
    cases hmem

/-- What has been written is the index as it was before it was emptied. -/
theorem Sound.stored_after (hw : w.Sound) (hcourse : w.session.Course t)
    (hclean : t.index.dirty = false) (hnone : t.writers = []) : Holds t.file w.last := by
  cases hcourse with
  | rest after _ _ hdirty _ hwriters _ hfile =>
    rw [hfile]
    exact hw.stored (hdirty.symm.trans hclean) (hwriters.symm.trans hnone)
  | capture _ _ _ _ hwriters _ =>
    rw [hwriters] at hnone
    cases hnone
  | store after _ _ hdirty _ snapshot text hwriting hwritten _ hfile =>
    have hthis : snapshot = w.last.snapshot := by
      apply hw.writing (hdirty.symm.trans hclean)
      rw [hwriting]
      exact List.mem_cons_self
    rw [hthis] at hwritten
    rw [hfile]
    exact Holds.of_text hw.lasting hwritten
  | fail _ _ _ hdirty _ _ _ _ =>
    rw [hdirty] at hclean
    cases hclean

end Courses

theorem Sound.unaltered (hw : w.Sound) (ha : a.isUse = true) (hspared : w.Spared a)
    (h : w.session.index.isAlteredBy a = false) : (w.step a).Sound := by
  obtain ⟨htended, hcourse⟩ := Session.step_course hw.tended ha h
  have hconsistent := Session.consistent_step hw.consistent a
  obtain ⟨hsession, hlast, hlasting, hdropped⟩ := step_unaltered hw h
  constructor
  case lasting => exact hlasting
  all_goals rw [hsession]
  case tended => exact htended
  case consistent => exact hconsistent
  case same =>
    rw [hdropped, hlast]
    exact hw.same_after hcourse
  case clean =>
    rw [hdropped]
    exact hw.clean_after hspared hcourse
  case writing =>
    rw [snapshot_of_kept hlast]
    exact hw.writing_after hcourse
  case stored => exact fun hclean hnone => (hw.stored_after hcourse hclean hnone).of_kept hlast

theorem Sound.step (hw : w.Sound) (ha : a.isUse = true) (hspared : w.Spared a) :
    (w.step a).Sound := by
  cases h : w.session.index.isAlteredBy a with
  | true => exact hw.altered hspared h
  | false => exact hw.unaltered ha hspared h

theorem Sound.run (hw : w.Sound) {actions : List Action} (huse : ∀ a ∈ actions, a.isUse = true)
    (hcalm : w.Calm actions) : (w.run actions).Sound := by
  induction actions generalizing w with
  | nil => exact hw
  | cons a actions ih =>
    obtain ⟨hspared, hrest⟩ := hcalm
    have hstep := hw.step (huse a List.mem_cons_self) hspared
    exact ih hstep (fun b hb => huse b (List.mem_cons_of_mem a hb)) hrest

/-- An index that is bound to its file, without a call that ends it, has its end before it. -/
theorem sound_start {s : Session} (hb : s.Bound) (ha : s.Accounted) (hc : s.index.Consistent) :
    (start s).Sound := by
  have hordinary (f : Flight) (hf : f ∈ s.flights) : f.isSave = true ∧ f.isLast = false := by
    rcases hb.saves f hf with hq | hw
    · obtain ⟨after, hr, hw, -⟩ := Session.eq_of_isQueued hq
      rw [Flight.isSave, Flight.isLast, hr, hw]
      exact ⟨rfl, rfl⟩
    · obtain ⟨path, snapshot, after, hr, hw, hafter⟩ := Session.eq_of_isWriting hw
      rw [Flight.isSave, Flight.isLast, hr, hw]
      cases after with
      | drop => cases hafter
      | _ => exact ⟨rfl, rfl⟩
  have hnone : s.hasLast = false := by
    rw [Session.hasLast, List.any_eq_false]
    intro f hf
    rw [(hordinary f hf).2]
    exact Bool.false_ne_true
  refine ⟨⟨hb.path, fun f hf => (hordinary f hf).1, hb.writes⟩, hc, hc, fun _ => rfl, ?_,
    ha.writing, ha.stored⟩
  rintro (hlast | hdropped)
  · change s.hasLast = true at hlast
    rw [hnone] at hlast
    cases hlast
  · cases hdropped

/-- Whatever else goes on when an index is ended, perhaps more than once: if nothing changes the
index while it is written for the last time, and no write fails then or after it was emptied, no
write of an emptied index begins. What is being written, and what is in the file when all writes are
over, is the index from before it was emptied, or as it has become since. -/
theorem end_keeps_index (options : Options) (root : String) (path : Option String)
    (file : Except Failure Content) (actions : List Action)
    (huse : ∀ a ∈ actions, a.isUse = true)
    (hcalm : Calm (start (Session.opened options root path file)) actions) :
    let w := (start (Session.opened options root path file)).run actions
    (w.dropped = true → w.session.index.dirty = false) ∧
      (w.session.index.dirty = false →
        (∀ snapshot ∈ w.session.writers, snapshot = w.last.snapshot) ∧
          (w.session.writers = [] → Holds w.session.file w.last)) := by
  intro w
  obtain ⟨hb, ha⟩ := Session.opened_spec options root path file
  have hc : (Session.opened options root path file).index.Consistent :=
    Session.consistent_run (consistent_create options) _
  have hw : w.Sound := (sound_start hb ha hc).run huse hcalm
  exact ⟨fun hdropped => hw.clean (.inr hdropped), fun hd => ⟨hw.writing hd, hw.stored hd⟩⟩

instance (w : Ending) (a : Action) : Decidable (w.Spared a) :=
  decidable_of_iff ((w.session.hasLast = true → w.session.index.isAlteredBy a = false) ∧
      (w.session.hasLast = true ∨ w.dropped = true → w.session.fails a = false))
    ⟨fun h => ⟨h.1, h.2⟩, fun h => ⟨h.unaltered, h.unfailing⟩⟩

def decideCalm : ∀ (w : Ending) (actions : List Action), Decidable (w.Calm actions)
  | _, [] => .isTrue trivial
  | w, a :: actions =>
    have := decideCalm (w.step a) actions
    inferInstanceAs (Decidable (w.Spared a ∧ Calm (w.step a) actions))

instance (w : Ending) (actions : List Action) : Decidable (w.Calm actions) :=
  decideCalm w actions

/-- An index that has just been opened, of a directory that was not indexed before. -/
def newIndex : Session :=
  Session.opened .default "/r" none (.error (.noSuchFile "/r/i"))

/-- An entry comes in and cannot be saved at first; then the index is ended twice, and saved once
more. -/
def endedTwice : List Action :=
  [.add 1 true (oldEntry "/r/d" "d" "d" .directory), .begin 2 .save,
    .resume 1 (.error (.device "disk full")), .begin 3 .destroy, .resume 2 (.ok ()),
    .begin 4 .destroy, .begin 5 .save]

theorem end_keeps_index_twice :
    (∀ a ∈ endedTwice, a.isUse = true) ∧ (start newIndex).Calm endedTwice ∧
      ((start newIndex).run endedTwice).session.index.entries.keys = [] ∧
      ((start newIndex).run endedTwice).last.entries.keys = ["/r/d"] ∧
      Holds ((start newIndex).run endedTwice).session.file
        ((start newIndex).run endedTwice).last := by
  have huse : ∀ a ∈ endedTwice, a.isUse = true := by decide
  have hcalm : (start newIndex).Calm endedTwice := by decide +kernel
  have hdropped : ((start newIndex).run endedTwice).dropped = true := by decide +kernel
  have hwriters : ((start newIndex).run endedTwice).session.writers = [] := by decide +kernel
  have hempty : ((start newIndex).run endedTwice).session.index.entries.keys = [] := by
    decide +kernel
  have hkeys : ((start newIndex).run endedTwice).last.entries.keys = ["/r/d"] := by decide +kernel
  unfold newIndex at hcalm hdropped hwriters hempty hkeys ⊢
  obtain ⟨hclean, hstored⟩ := end_keeps_index .default "/r" none (.error (.noSuchFile "/r/i"))
    endedTwice huse hcalm
  exact ⟨huse, hcalm, hempty, hkeys, (hstored (hclean hdropped)).2 hwriters⟩

/-- A directory is saved, and a file in it is not. The last write fails, and the index is ended once
more. -/
def endedAfterFailure : List Action :=
  [.begin 1 (.batch [oldEntry "/r/d" "d" "d" .directory]), .resume 1 (.ok ()),
    .add 2 true (oldEntry "/r/d/a.txt" "a.txt" "d/a.txt" .file), .begin 3 .destroy,
    .resume 2 (.error (.device "disk full")), .begin 4 .destroy, .resume 3 (.ok ())]

/-- The failure leaves the mark of a change on an index that has been emptied, so that ending it
again puts an empty index in the place of the one that was saved. -/
theorem end_loses_index :
    (newIndex.run (endedAfterFailure.take 4)).index.entries.keys = ["/r/d", "/r/d/a.txt"] ∧
      (newIndex.run endedAfterFailure).index.entries.keys = [] ∧
      Holds (newIndex.run endedAfterFailure).file (newIndex.run endedAfterFailure).index := by
  have hfile : (newIndex.run endedAfterFailure).file =
      .ok (.text ((newIndex.run endedAfterFailure).index.snapshot.toJson.write ++ "\n")) := by
    decide +kernel
  refine ⟨by decide +kernel, by decide +kernel, ?_⟩
  have hshort : ∀ n ∈ (newIndex.run endedAfterFailure).index.snapshot.integers,
      n.natAbs < Number.tens 13 := by
    decide +kernel
  have hconsistent : newIndex.index.Consistent :=
    Session.consistent_run (consistent_create .default) _
  rw [hfile]
  refine Holds.of_text (Session.consistent_run hconsistent endedAfterFailure) ?_
  rw [Snapshot.text, if_pos (Snapshot.isWritable_toJson (Snapshot.short_of_small hshort))]

end Ending

end LiveIndex.Index
