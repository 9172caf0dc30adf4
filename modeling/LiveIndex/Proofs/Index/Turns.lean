import LiveIndex.Proofs.Index.Steps

/-! The lock in the course of a session. It goes round in the order in which it was asked for, and
whoever has it is writing. -/

namespace LiveIndex.Index.Session

/-- The calls that wait for the lock are in its queue, in their order, and whoever has the lock is
writing. -/
structure InTurn (s : Session) : Prop where
  queue : s.index.lock.queue = (s.flights.filter Flight.awaitsLock).map Flight.id
  held : s.index.lock.held = true → ∃ f ∈ s.flights, f.writes = true

variable {s : Session}

theorem InTurn.of_same {t : Session} (h : s.InTurn) (hlock : t.index.lock = s.index.lock)
    (hflights : t.flights = s.flights) : t.InTurn := by
  refine ⟨?_, ?_⟩
  · rw [hlock, hflights]
    exact h.queue
  · rw [hlock, hflights]
    exact h.held

/-- Work that does not ask for the lock leaves the queue alone. If it ends with the lock held, some
call writes already, or this one begins to. -/
theorem inTurn_advance (id : Nat) (ticket : Option Nat) {work : Work}
    (hqueue : (lockAfter work).queue = (s.flights.filter Flight.awaitsLock).map Flight.id)
    (hheld : (lockAfter work).held = true → (∃ f ∈ s.flights, f.writes = true) ∨
      ∃ path snapshot after, work.turn = .ask (.write path snapshot) (.writing after))
    (hother : ∀ after, work.turn ≠ .ask .lock (.queued after)) :
    (s.advance id ticket work).InTurn := by
  unfold advance
  split
  · next r hturn =>
    refine ⟨?_, ?_⟩
    · rw [finish_index, change_index, withLock_lock]
      change _ = ((s.change work.state work.effects).flights.filter _).map _
      rw [change_flights]
      exact hqueue
    · rw [finish_index, change_index, withLock_lock]
      intro h
      change ∃ f ∈ (s.change work.state work.effects).flights, _
      rw [change_flights]
      rcases hheld h with hwriter | ⟨path, snapshot, after, hwrite⟩
      · exact hwriter
      · rw [hturn] at hwrite
        cases hwrite
  · next request waiting hturn =>
    obtain ⟨f, hf⟩ : ∃ f : Flight, f = ⟨id, ticket, request, waiting⟩ := ⟨_, rfl⟩
    have hflights : ((s.change work.state work.effects).park f).flights = s.flights ++ [f] := by
      change (s.change work.state work.effects).flights ++ _ = _
      rw [change_flights]
    have hawaits : f.awaitsLock = false := by
      rw [Flight.awaitsLock, hf]
      split
      · next after hrequest hwaiting =>
        dsimp only at hrequest hwaiting
        rw [hrequest, hwaiting] at hturn
        exact absurd hturn (hother after)
      · rfl
    rw [← hf]
    refine ⟨?_, ?_⟩
    · rw [hflights, List.filter_append, List.filter_singleton, hawaits, park_index, change_index,
        withLock_lock]
      simpa [lockAfter] using hqueue
    · rw [hflights, park_index, change_index, withLock_lock]
      intro h
      rcases hheld h with ⟨g, hg, hwrites⟩ | ⟨path, snapshot, after, hwrite⟩
      · exact ⟨g, List.mem_append_left _ hg, hwrites⟩
      · rw [hturn] at hwrite
        cases hwrite
        exact ⟨f, List.mem_append_right _ List.mem_cons_self, by rw [hf]; rfl⟩

/-- Work for a call that did not wait keeps the turns. -/
theorem inTurn_settle (id : Nat) (ticket : Option Nat) {work : Work}
    (hqueue : (lockAfter work).queue = (s.flights.filter Flight.awaitsLock).map Flight.id)
    (hheld : (lockAfter work).held = true → (∃ f ∈ s.flights, f.writes = true) ∨
      ∃ path snapshot after, work.turn = .ask (.write path snapshot) (.writing after)) :
    (s.settle id ticket work).InTurn := by
  unfold settle
  split
  · next after hturn =>
    obtain ⟨t, ht⟩ : ∃ t, t = s.change work.state work.effects := ⟨_, rfl⟩
    have hlock : t.index.lock = lockAfter work := by
      rw [ht, change_index, withLock_lock]
      rfl
    have hflights : t.flights = s.flights := by
      rw [ht, change_flights]
    rw [← hlock, ← hflights] at hqueue
    dsimp only
    rw [← ht]
    split
    · -- The lock is taken, and given back unless there is something to write.
      rcases lockTaken_cases (t.index.withLock t.index.lock.take) after with
        ⟨⟨path, snapshot, hwrite⟩, hafter⟩ | ⟨hdone, hafter⟩
      · apply inTurn_advance
        · rw [hafter]
          exact hqueue
        · exact fun _ => .inr ⟨path, snapshot, after, hwrite⟩
        · intro after'
          rw [hwrite]
          exact nofun
      · apply inTurn_advance
        · rw [hafter]
          exact hqueue
        · rw [hafter]
          exact fun h => absurd h Bool.false_ne_true
        · intro after'
          rw [hdone]
          exact nofun
    · refine ⟨?_, ?_⟩
      · change t.index.lock.queue ++ [id] = ((t.flights ++ [_]).filter _).map _
        rw [List.filter_append, List.map_append, hqueue]
        rfl
      · intro h
        change ∃ f ∈ t.flights ++ [_], _
        have hheld' : (lockAfter work).held = true := by
          rw [← hlock]
          exact h
        rcases hheld hheld' with ⟨g, hg, hwrites⟩ | ⟨path, snapshot, after', hwrite⟩
        · exact ⟨g, List.mem_append_left _ (hflights ▸ hg), hwrites⟩
        · rw [hturn] at hwrite
          cases hwrite
  · next hother => exact inTurn_advance id ticket hqueue hheld hother

/-- A call that goes on leaves the others, in their order. -/
theorem exists_without {f : Flight} (hf : s.flights.find? (·.id = f.id) = some f) :
    ∃ front back, s.flights = front ++ f :: back ∧ (s.without f).flights = front ++ back ∧
      ∀ g ∈ front, g.id ≠ f.id := by
  obtain ⟨-, front, back, hsplit, hbefore⟩ := List.find?_eq_some_iff_append.mp hf
  have hother : ∀ g ∈ front, g.id ≠ f.id := by
    intro g hg
    simpa using hbefore g hg
  refine ⟨front, back, hsplit, ?_, hother⟩
  rw [without, hsplit, List.eraseP_append_right _ (by simpa using hother),
    List.eraseP_cons_of_pos (by simp)]

/-- Without a call that does not wait for the lock the queue is the same. -/
theorem queue_without {f : Flight} (hf : s.flights.find? (·.id = f.id) = some f)
    (hawaits : f.awaitsLock = false) :
    ((s.without f).flights.filter Flight.awaitsLock).map Flight.id =
      (s.flights.filter Flight.awaitsLock).map Flight.id := by
  obtain ⟨front, back, hsplit, hrest, -⟩ := exists_without hf
  rw [hsplit, hrest, List.filter_append, List.filter_append,
    List.filter_cons_of_neg (by simp [hawaits])]

theorem writer_without {f : Flight} (hf : s.flights.find? (·.id = f.id) = some f)
    (hwrites : f.writes = false) (h : ∃ g ∈ s.flights, g.writes = true) :
    ∃ g ∈ (s.without f).flights, g.writes = true := by
  obtain ⟨front, back, hsplit, hrest, -⟩ := exists_without hf
  obtain ⟨g, hg, hg'⟩ := h
  refine ⟨g, ?_, hg'⟩
  rw [hsplit] at hg
  rw [hrest]
  rcases List.mem_append.mp hg with hfront | hback
  · exact List.mem_append_left _ hfront
  · rcases List.mem_cons.mp hback with rfl | hback
    · rw [hwrites] at hg'
      cases hg'
    · exact List.mem_append_right _ hback

theorem InTurn.wake (h : s.InTurn) {f : Flight} (hf : s.flights.find? (·.id = f.id) = some f)
    (result : Except Failure Unit) : (s.wake f result).InTurn := by
  rcases s.wake_kinds f result with hsame | ⟨t, work, hsame, hwake, hkind⟩
  · rw [hsame]
    exact h
  · have hothers (hawaits : f.awaitsLock = false) :
        s.index.lock.queue = (t.flights.filter Flight.awaitsLock).map Flight.id := by
      rw [hsame.flights, queue_without hf hawaits]
      exact h.queue
    rw [hwake]
    cases hkind with
    | other hawaits hwrites hlock =>
      apply inTurn_settle
      · rw [hlock]
        exact hothers hawaits
      · rw [hlock, hsame.flights]
        exact fun hheld => .inl (writer_without hf hwrites (h.held hheld))
    | lock after hrequest hwaiting _ _ hwork =>
      -- The first one in the queue leaves it.
      have hawaits : f.awaitsLock = true := by simp [Flight.awaitsLock, hrequest, hwaiting]
      have hqueue : (s.index.lock.enter f.id).queue =
          (t.flights.filter Flight.awaitsLock).map Flight.id := by
        obtain ⟨front, back, hsplit, hrest, hother⟩ := exists_without hf
        have hnot : f.id ∉ (front.filter Flight.awaitsLock).map Flight.id := by
          intro hmem
          obtain ⟨g, hg, hid⟩ := List.mem_map.mp hmem
          exact hother g (List.mem_filter.mp hg).1 hid
        change s.index.lock.queue.erase f.id = _
        rw [h.queue, hsame.flights, hsplit, hrest, List.filter_append, List.filter_append,
          List.filter_cons_of_pos hawaits, List.map_append, List.map_append, List.map_cons,
          List.erase_append_right _ hnot, List.erase_cons_head]
      rw [hwork]
      rcases lockTaken_cases (s.index.withLock (s.index.lock.enter f.id)) after with
        ⟨⟨path, snapshot, hwrite⟩, hlock⟩ | ⟨-, hlock⟩
      · apply inTurn_settle
        · rw [hlock]
          exact hqueue
        · exact fun _ => .inr ⟨path, snapshot, after, hwrite⟩
      · apply inTurn_settle
        · rw [hlock]
          exact hqueue
        · rw [hlock]
          exact fun hheld => absurd hheld Bool.false_ne_true
    | write path snapshot after outcome hrequest _ _ hwork =>
      have hawaits : f.awaitsLock = false := by simp [Flight.awaitsLock, hrequest]
      have hlock := (written_cases s.index after outcome).1
      rw [hwork]
      apply inTurn_settle
      · rw [hlock]
        exact hothers hawaits
      · rw [hlock]
        exact fun hheld => absurd hheld Bool.false_ne_true

theorem InTurn.step (h : s.InTurn) (a : Action) : (s.step a).InTurn := by
  rcases s.step_cases a with hsame | ⟨t, ticket, work, hsame, hlock, hstep⟩ |
    ⟨f, result, -, hf, hstep⟩
  · exact h.of_same hsame.lock hsame.flights
  · rw [hstep]
    apply inTurn_settle
    · rw [hlock]
      exact h.queue.trans (by rw [hsame.flights])
    · rw [hlock]
      intro hheld
      left
      change ∃ f ∈ t.flights, _
      rw [hsame.flights]
      exact h.held hheld
  · rw [hstep]
    exact h.wake hf result

theorem InTurn.run (h : s.InTurn) (actions : List Action) : (s.run actions).InTurn := by
  induction actions generalizing s with
  | nil => exact h
  | cons a actions ih => exact ih (h.step a)

theorem inTurn_fresh (options : Options) (file : Except Failure Content) :
    (fresh options file).InTurn :=
  ⟨rfl, fun h => absurd h Bool.false_ne_true⟩

end LiveIndex.Index.Session
