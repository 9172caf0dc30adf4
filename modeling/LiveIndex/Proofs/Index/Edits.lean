import LiveIndex.Proofs.Index.Counters
import LiveIndex.Proofs.Index.Session
import Mathlib.Logic.Relation

/-! What a step can do to the entries of an index and to its finder. However a call is interrupted,
each step comes to a few edits, one after another, so that what every edit keeps holds of every
state. -/

namespace LiveIndex.Index

/-- The settings and the finder as they were, besides entries and counters. -/
structure SameStock (s t : Index) : Prop extends SameContent s t where
  options : t.options = s.options
  finder : t.finder = s.finder

/-- One change of what an index holds. -/
inductive Edit : Index → Index → Prop
  | aside {s t : Index} (same : SameStock s t) : Edit s t
  | stored (s : Index) (e : Entry) : Edit s (s.store e)
  | removed (s : Index) (path : String) : Edit s (s.removeFamily path).1
  | cleared (s : Index) (now : Int) : Edit s (s.clear now)
  | adopted (s : Index) (snapshot : Snapshot) : Edit s (s.adopt snapshot)
  | dropped (s : Index) : Edit s s.dropState
  | renewed (s : Index) : Edit s s.renewFinder
  | consulted (s : Index) : Edit s { s with finder := some s.currentFinder }

/-- Edits one after another. -/
abbrev Edits : Index → Index → Prop :=
  Relation.ReflTransGen Edit

variable {s t : Index}

theorem SameStock.trans {u : Index} (h : SameStock s t) (h' : SameStock t u) : SameStock s u :=
  ⟨⟨h'.entries.trans h.entries, h'.counters.trans h.counters⟩, h'.options.trans h.options,
    h'.finder.trans h.finder⟩

theorem isCandidate_congr (h : t.options = s.options) : t.isCandidate = s.isCandidate := by
  funext e
  rw [isCandidate, isCandidate, h]

/-- A search gets the same finder, also where it has to be made. -/
theorem SameStock.currentFinder (h : SameStock s t) : t.currentFinder = s.currentFinder := by
  have hcandidates : t.candidates = s.candidates := by
    rw [candidates, candidates, h.entries, isCandidate_congr h.options]
  rw [Index.currentFinder, Index.currentFinder, h.finder, freshFinder, freshFinder, hcandidates,
    h.options]

theorem edits_refl (s : Index) : Edits s s :=
  Relation.ReflTransGen.refl

theorem Edit.edits (h : Edit s t) : Edits s t :=
  Relation.ReflTransGen.single h

theorem Edits.aside {u : Index} (h : Edits s t) (same : SameStock t u) : Edits s u :=
  h.tail (.aside same)

theorem edits_upsert (s : Index) (e : Entry) : Edits s (s.upsert e).1 := by
  unfold upsert
  split
  · exact (Edit.stored s e).edits
  · split
    · exact edits_refl s
    · exact (Edit.stored s e).edits

theorem edits_upsertAll (s : Index) (entries : List Entry) : Edits s (s.upsertAll entries).1 := by
  induction entries generalizing s with
  | nil => exact edits_refl s
  | cons e entries ih => exact (edits_upsert s e).trans (ih (s.upsert e).1)

theorem edits_afterSave (s : Index) (effects : List Effect) (saved : Bool) (after : AfterSave) :
    Edits s (s.afterSave effects saved after).state := by
  cases after with
  | drop => exact (Edit.dropped s).edits
  | answer => exact edits_refl s
  | summary summary => exact edits_refl s
  | count n => exact edits_refl s

theorem edits_beginSave (s : Index) (after : AfterSave) : Edits s (s.beginSave after).state := by
  unfold beginSave
  split
  · exact edits_afterSave s [] false after
  · exact edits_refl s

theorem edits_lockTaken (s : Index) (after : AfterSave) : Edits s (s.lockTaken after).state := by
  unfold lockTaken
  split
  · have hclean : SameStock s { s with dirty := false } := ⟨⟨rfl, rfl⟩, rfl, rfl⟩
    exact (Edit.aside hclean).edits
  · exact edits_afterSave s [.unlock] false after

theorem edits_written (s : Index) (after : AfterSave) (result : Except Failure Unit) :
    Edits s (s.written after result).state := by
  unfold written
  split
  · exact edits_afterSave s [.unlock] true after
  · split
    · have hdirty : SameStock s { s with dirty := true } := ⟨⟨rfl, rfl⟩, rfl, rfl⟩
      exact (Edit.aside hdirty).edits.trans (edits_afterSave _ _ false after)
    · exact edits_refl s

theorem edits_startEmpty (s : Index) (initial : Bool) (effects : List Effect) :
    Edits s (s.startEmpty initial effects).state := by
  unfold startEmpty
  split
  · exact (Edit.renewed s).edits
  · exact edits_refl s

theorem edits_loaded (s : Index) (initial : Bool) (result : Except Failure Snapshot) :
    Edits s (s.loaded initial result).state := by
  unfold loaded
  split
  · next snapshot => exact (Edit.adopted s snapshot).edits
  · exact edits_startEmpty s initial []
  · split
    · exact edits_startEmpty s initial _
    · exact edits_startEmpty s initial _
    · exact edits_refl s

theorem edits_beginLoad (s : Index) (initial : Bool) : Edits s (s.beginLoad initial).state := by
  unfold beginLoad
  split
  · exact edits_startEmpty s initial []
  · exact edits_refl s

theorem edits_publish (s : Index) (now : Int) (changes : List Notice) (after : AfterSave) :
    Edits s (s.publish now changes after).state := by
  have hnoted : SameStock s { s.noteChange now with version := s.version + 1 } :=
    ⟨⟨rfl, rfl⟩, rfl, rfl⟩
  exact (Edit.aside hnoted).edits.trans (edits_beginSave _ after)

theorem edits_begin (s : Index) (now : Int) (call : Call) : Edits s (s.begin now call).state := by
  cases call with
  | prepare root path =>
    have hbound : SameStock s { s with
        root := some (Path.tidy root)
        path := some ((path.map Path.tidy).getD
          (Environment.defaultIndexPath (Path.tidy root))) } := ⟨⟨rfl, rfl⟩, rfl, rfl⟩
    exact (Edit.aside hbound).edits.trans (edits_beginLoad _ true)
  | load => exact edits_beginLoad s false
  | save => exact edits_beginSave s .answer
  | batch entries =>
    have hall := edits_upsertAll s entries
    unfold begin beginBatch
    dsimp only
    split
    · exact hall
    · exact hall.trans (edits_publish ..)
  | remove path =>
    have hleft := (Edit.removed s path).edits
    unfold begin beginRemove
    dsimp only
    split
    · exact hleft
    · exact hleft.trans (edits_publish ..)
  | destroy =>
    have hquiet : SameStock s { s with saveTimer := none } := ⟨⟨rfl, rfl⟩, rfl, rfl⟩
    have haside := (Edit.aside hquiet).edits
    unfold begin beginDestroy
    dsimp only
    split
    · exact haside.trans (edits_beginSave _ .drop)
    · exact haside

theorem edits_add (s : Index) (now : Int) (timed : Bool) (e : Entry) :
    Edits s (s.add now timed e).1 := by
  have hone := edits_upsert s e
  unfold add
  dsimp only
  split
  · exact hone
  · -- The mark of the change and the timer of the save leave what is held alone.
    cases timed with
    | true => exact hone.aside ⟨⟨rfl, rfl⟩, rfl, rfl⟩
    | false => exact hone.aside ⟨⟨rfl, rfl⟩, rfl, rfl⟩

theorem edits_search (s : Index) (text : String) (exact : Bool) (limit : Option Int) :
    Edits s (s.search text exact limit).1 := by
  unfold search
  dsimp only
  split
  · exact edits_refl s
  · split
    · exact edits_refl s
    · exact (Edit.consulted s).edits

theorem edits_query (s : Index) (text : String) (limit : Option Int) :
    Edits s (s.query text limit).1 := by
  unfold query
  dsimp only
  split
  · exact edits_refl s
  · split
    · exact edits_search ..
    · exact (Edit.consulted s).edits

theorem edits_listen (s : Index) (l : Listener) : Edits s (s.listen l) := by
  unfold listen
  split
  · exact edits_refl s
  · have htold : SameStock s { s with listeners := s.listeners ++ [l] } := ⟨⟨rfl, rfl⟩, rfl, rfl⟩
    exact (Edit.aside htold).edits

theorem sameStock_withLock (s : Index) (lock : Lock) : SameStock s (s.withLock lock) :=
  ⟨⟨rfl, rfl⟩, rfl, rfl⟩

namespace Session

variable (s : Session)

theorem edits_change {index t : Index} (h : Edits t index) (effects : List Effect) :
    Edits t (s.change index effects).index := by
  rw [change_index]
  exact h.aside (sameStock_withLock index _)

theorem edits_settle (id : Nat) (ticket : Option Nat) {work : Work} {t : Index}
    (h : Edits t work.state) : Edits t (s.settle id ticket work).index := by
  obtain ⟨lock, hs | ⟨after, lock', hs⟩⟩ := s.settle_index id ticket work
  · rw [hs]
    exact h.aside (sameStock_withLock _ lock)
  · -- What is done with the lock is another stretch of work.
    have htaken : Edits t _ :=
      (h.aside (sameStock_withLock _ lock')).trans (edits_lockTaken _ after)
    rw [hs]
    exact htaken.aside (sameStock_withLock _ lock)

theorem edits_wake (f : Flight) (result : Except Failure Unit) :
    Edits s.index (s.wake f result).index := by
  unfold wake
  dsimp only
  split
  · exact edits_settle _ _ _ (edits_loaded ..)
  · split
    · have hentered := (Edit.aside (sameStock_withLock s.index (s.index.lock.enter f.id))).edits
      exact edits_settle _ _ _ (hentered.trans (edits_lockTaken ..))
    · exact edits_refl _
  · exact edits_settle _ _ _ (edits_written ..)
  · split
    · exact edits_refl _
    · exact edits_settle _ _ _ (edits_beginSave ..)
  · exact edits_refl _

/-- Whatever happens next comes to edits. -/
theorem step_edits (a : Action) : Edits s.index (s.step a).index := by
  cases a with
  | begin now call => exact edits_settle _ _ _ (edits_begin s.index now call)
  | add now timed e => exact s.edits_change (edits_add s.index now timed e) _
  | clear now => exact (Edit.cleared s.index now).edits
  | search text exact limit => exact edits_search s.index text exact limit
  | query text limit => exact edits_query s.index text limit
  | listen l => exact edits_listen s.index l
  | unlisten l =>
    have hforgot : SameStock s.index (s.index.unlisten l) := ⟨⟨rfl, rfl⟩, rfl, rfl⟩
    exact (Edit.aside hforgot).edits
  | disturb file => exact edits_refl s.index
  | ring ticket =>
    simp only [step]
    split
    · have hdue : SameStock s.index (s.index.saveDue ticket).1 := ⟨⟨rfl, rfl⟩, rfl, rfl⟩
      exact edits_change _ (Edit.aside hdue).edits _
    · exact edits_refl s.index
  | startSave ticket =>
    simp only [step]
    split
    · exact edits_settle _ _ _ (edits_beginSave s.index .answer)
    · exact edits_refl s.index
  | resume id result =>
    simp only [step]
    split
    · next f _ => exact s.edits_wake f result
    · exact edits_refl s.index
  | noteOver ticket =>
    simp only [step]
    split
    · have hover : SameStock s.index (s.index.saveOver ticket) := ⟨⟨rfl, rfl⟩, rfl, rfl⟩
      exact (Edit.aside hover).edits
    · exact edits_refl s.index

theorem run_edits (actions : List Action) : Edits s.index (s.run actions).index := by
  induction actions generalizing s with
  | nil => exact edits_refl s.index
  | cons a actions ih => exact (s.step_edits a).trans (ih (s.step a))

end Session

end LiveIndex.Index
