import LiveIndex.Proofs.Index.Alone

/-! The entries of an index under any schedule in which it is neither loaded nor ended. Saves come
and go; only batches, removals, single entries and clearing reach the entries, and each of them does
so in one step. -/

namespace LiveIndex.Index

/-- The entries after an action. -/
def entriesAfter (s : Index) : Action → OrderedMap String Entry
  | .begin _ (.batch entries) => (s.upsertAll entries).1.entries
  | .begin _ (.remove path) => (s.removeFamily path).1.entries
  | .add _ _ e => (s.upsert e).1.entries
  | .clear _ => .empty
  | _ => s.entries

/-- Whether an action leaves an index in use: it neither loads nor ends it. -/
def Action.isLasting : Action → Bool
  | .begin _ (.prepare ..) | .begin _ .load | .begin _ .destroy => false
  | _ => true

/-- Whether an action leaves the entries alone: it is none of those that store or remove some. -/
def Action.isQuiet : Action → Bool
  | .begin _ .save => true
  | .begin .. | .add .. | .clear _ => false
  | _ => true

theorem Action.isLasting_of_isQuiet {a : Action} (h : a.isQuiet = true) : a.isLasting = true := by
  cases a with
  | begin now call =>
    cases call with
    | save => rfl
    | _ => cases h
  | _ => rfl

theorem entriesAfter_of_isQuiet (s : Index) {a : Action} (h : a.isQuiet = true) :
    s.entriesAfter a = s.entries := by
  cases a with
  | begin now call =>
    cases call with
    | save => rfl
    | _ => cases h
  | add => cases h
  | clear => cases h
  | _ => rfl

/-- Whether a call is a save after which the index stays in use. -/
def Flight.isLasting (f : Flight) : Bool :=
  f.isQueued || f.isWriting

namespace Session

/-- No call is under way but saves after which the index stays in use. -/
def Lasting (s : Session) : Prop :=
  ∀ f ∈ s.flights, f.isLasting = true

theorem lasting_of_idle {s : Session} (h : s.Idle) : s.Lasting := by
  rw [Lasting, h.flights]
  exact fun _ hf => absurd hf List.not_mem_nil

/-- Work that keeps the entries, and after which a call at most goes on saving. -/
structure Saves (entries : OrderedMap String Entry) (work : Work) : Prop where
  entries : work.state.entries = entries
  lasting : ∀ request waiting, work.turn = .ask request waiting →
    ∀ id ticket, (Flight.mk id ticket request waiting).isLasting = true

theorem saves_done (s : Index) (effects : List Effect) (answer : Answer) :
    Saves s.entries (.done s effects answer) :=
  ⟨rfl, nofun⟩

theorem Saves.after {entries : OrderedMap String Entry} {work : Work} (h : Saves entries work)
    (effects : List Effect) : Saves entries (work.after effects) :=
  ⟨h.entries, h.lasting⟩

theorem saves_afterSave (s : Index) (effects : List Effect) (saved : Bool) {after : AfterSave}
    (ha : after.isOrdinary = true) : Saves s.entries (s.afterSave effects saved after) := by
  obtain ⟨answer, hanswer⟩ := afterSave_ordinary s effects saved ha
  rw [hanswer]
  exact saves_done ..

theorem saves_lockTaken (s : Index) {after : AfterSave} (ha : after.isOrdinary = true) :
    Saves s.entries (s.lockTaken after) := by
  unfold lockTaken
  split
  · refine ⟨rfl, ?_⟩
    intro request waiting hturn id ticket
    cases hturn
    exact ha
  · exact saves_afterSave s _ _ ha

theorem saves_beginSave (s : Index) {after : AfterSave} (ha : after.isOrdinary = true) :
    Saves s.entries (s.beginSave after) := by
  unfold beginSave
  split
  · exact saves_afterSave s _ _ ha
  · refine ⟨rfl, ?_⟩
    intro request waiting hturn id ticket
    cases hturn
    exact (Bool.or_false _).trans ha

theorem saves_publish (s : Index) (now : Int) (changes : List Notice) {after : AfterSave}
    (ha : after.isOrdinary = true) : Saves s.entries (s.publish now changes after) :=
  (saves_beginSave (s.bump now) ha).after _

theorem saves_written (s : Index) {after : AfterSave} (ha : after.isOrdinary = true)
    (result : Except Failure Unit) : Saves s.entries (s.written after result) := by
  unfold written
  split
  · exact saves_afterSave s _ _ ha
  · split
    · exact saves_afterSave { s with dirty := true } _ _ ha
    · exact ⟨rfl, nofun⟩

variable {s : Session}

/-- A session stays lasting where calls go away, and one that saves may come. -/
theorem Lasting.concat (hs : s.Lasting) {t : Session} {f : Flight}
    (hflights : t.flights = s.flights ++ [f]) (hf : f.isLasting = true) : t.Lasting := by
  rw [Lasting, hflights]
  intro g hg
  rcases List.mem_append.mp hg with hg | hg
  · exact hs g hg
  · rw [List.mem_singleton.mp hg]
    exact hf

theorem Lasting.of_subset (hs : s.Lasting) {t : Session} (ht : t.flights ⊆ s.flights) :
    t.Lasting :=
  fun f hf => hs f (ht hf)

theorem Lasting.advance (hs : s.Lasting) {entries : OrderedMap String Entry} {work : Work}
    (hwork : Saves entries work) (id : Nat) (ticket : Option Nat) :
    (s.advance id ticket work).Lasting ∧ (s.advance id ticket work).index.entries = entries := by
  obtain ⟨lock, hindex⟩ := s.advance_index id ticket work
  refine ⟨?_, ?_⟩
  · unfold Session.advance
    split
    · refine hs.of_subset ?_
      change (s.change work.state work.effects).flights ⊆ _
      rw [change_flights]
      exact List.Subset.refl _
    · next request waiting hturn =>
      have hflights : ((s.change work.state work.effects).park
          ⟨id, ticket, request, waiting⟩).flights =
          s.flights ++ [⟨id, ticket, request, waiting⟩] := by
        change (s.change work.state work.effects).flights ++ _ = _
        rw [change_flights]
      exact hs.concat hflights (hwork.lasting request waiting hturn id ticket)
  · rw [hindex]
    exact hwork.entries

theorem Lasting.settle (hs : s.Lasting) {entries : OrderedMap String Entry} {work : Work}
    (hwork : Saves entries work) (id : Nat) (ticket : Option Nat) :
    (s.settle id ticket work).Lasting ∧ (s.settle id ticket work).index.entries = entries := by
  unfold Session.settle
  split
  · next after hturn =>
    have hqueued := hwork.lasting _ _ hturn id ticket
    have ha : after.isOrdinary = true := (Bool.or_false _).symm.trans hqueued
    have hchanged : (s.change work.state work.effects).Lasting := by
      refine hs.of_subset ?_
      rw [change_flights]
      exact List.Subset.refl _
    have hentries : (s.change work.state work.effects).index.entries = entries := by
      rw [change_index]
      exact hwork.entries
    dsimp only
    split
    · -- The lock is taken at once, which leaves the entries alone.
      have hlocked := saves_lockTaken ((s.change work.state work.effects).index.withLock
        (s.change work.state work.effects).index.lock.take) ha
      have hdone := hchanged.advance hlocked id ticket
      exact ⟨hdone.1, hdone.2.trans hentries⟩
    · exact ⟨hchanged.concat rfl hqueued, hentries⟩
  · exact hs.advance hwork id ticket

theorem Lasting.wake (hs : s.Lasting) {f : Flight} (hf : f ∈ s.flights)
    (result : Except Failure Unit) :
    (s.wake f result).Lasting ∧ (s.wake f result).index.entries = s.index.entries := by
  have hrest : (s.without f).Lasting := hs.of_subset List.eraseP_subset
  rcases Bool.or_eq_true_iff.mp (hs f hf) with hq | hw
  · obtain ⟨after, hrequest, hwaiting, ha⟩ := eq_of_isQueued hq
    simp only [Session.wake, hrequest, hwaiting]
    split
    · exact hrest.settle (saves_lockTaken _ ha) f.id f.ticket
    · exact ⟨hs, rfl⟩
  · obtain ⟨path, snapshot, after, hrequest, hwaiting, ha⟩ := eq_of_isWriting hw
    simp only [Session.wake, hrequest, hwaiting]
    have hconcluded : ((s.without f).concludeWrite snapshot result).1.Lasting := by
      refine hrest.of_subset ?_
      unfold concludeWrite
      split <;> exact List.Subset.refl _
    exact hconcluded.settle (saves_written s.index ha _) f.id f.ticket

/-- Whatever happens while an index stays in use, its entries are what the action says. -/
theorem Lasting.step (hs : s.Lasting) {a : Action} (ha : a.isLasting = true) :
    (s.step a).Lasting ∧ (s.step a).index.entries = s.index.entriesAfter a := by
  have hsame {t : Session} (hflights : t.flights = s.flights)
      (hentries : t.index.entries = s.index.entriesAfter a) :
      t.Lasting ∧ t.index.entries = s.index.entriesAfter a := by
    refine ⟨hs.of_subset ?_, hentries⟩
    rw [hflights]
    exact List.Subset.refl _
  have hnext : Lasting { s with nextId := s.nextId + 1 } := hs
  cases a with
  | begin now call =>
    cases call with
    | save => exact hnext.settle (saves_beginSave s.index rfl) s.nextId none
    | batch entries =>
      refine hnext.settle (?_ : Saves _ (s.index.beginBatch now entries)) s.nextId none
      unfold beginBatch
      dsimp only
      split
      · exact saves_done ..
      · exact saves_publish _ now _ rfl
    | remove path =>
      refine hnext.settle (?_ : Saves _ (s.index.beginRemove now path)) s.nextId none
      unfold beginRemove
      dsimp only
      split
      · exact saves_done ..
      · exact saves_publish _ now _ rfl
    | prepare root path => cases ha
    | load => cases ha
    | destroy => cases ha
  | add now timed e =>
    refine hsame (s.change_flights ..) ?_
    change (s.change _ _).index.entries = (s.index.upsert e).1.entries
    rw [change_index]
    unfold add
    dsimp only
    split
    · rfl
    · cases timed <;> rfl
  | startSave ticket =>
    simp only [Session.step]
    split
    · have hdue : Lasting { s with due := s.due.erase ticket, nextId := s.nextId + 1 } := hs
      exact hdue.settle (saves_beginSave s.index rfl) s.nextId (some ticket)
    · exact hsame rfl rfl
  | resume id result =>
    simp only [Session.step]
    split
    · next f hf => exact hs.wake (List.mem_of_find?_eq_some hf) result
    · exact hsame rfl rfl
  | search text exact limit =>
    obtain ⟨finder, hindex⟩ := search_index s.index text exact limit
    refine hsame rfl ?_
    simp only [Session.step, hindex]
    rfl
  | query text limit =>
    obtain ⟨finder, hindex⟩ := query_index s.index text limit
    refine hsame rfl ?_
    simp only [Session.step, hindex]
    rfl
  | listen l =>
    refine hsame rfl ?_
    simp only [Session.step, Index.listen]
    split <;> rfl
  | ring ticket =>
    simp only [Session.step]
    split
    · exact hsame (change_flights ..) (by rw [change_index]; rfl)
    · exact hsame rfl rfl
  | noteOver ticket =>
    simp only [Session.step]
    split <;> exact hsame rfl rfl
  | clear now => exact hsame rfl rfl
  | unlisten l => exact hsame rfl rfl
  | disturb file => exact hsame rfl rfl

end Session

end LiveIndex.Index
