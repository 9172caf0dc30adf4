import LiveIndex.Proofs.Index.Steps
import Mathlib.Data.List.Induction

/-! The file of an index follows the index. Without a mark of a change it gives the index again, no
change is lost by a call that has ended, and a mark that stays has a reason. -/

namespace LiveIndex.Index

theorem Holds.of_kept {file : Except Failure Content} {s s' : Index} (h : Holds file s)
    (hkept : s'.kept = s.kept) : Holds file s' :=
  h.trans hkept.symm

/-- Loading ends a call and leaves the mark of a change down. -/
theorem loaded_spec (s : Index) (initial : Bool) (result : Except Failure Snapshot) :
    (∃ r, (s.loaded initial result).turn = .done r) ∧
      (∀ e ∈ (s.loaded initial result).effects, e ≠ .unlock) ∧
      (s.loaded initial result).state.path = s.path ∧
      (s.loaded initial result).state.lock = s.lock ∧
      (s.dirty = false → (s.loaded initial result).state.dirty = false) := by
  have hempty (effects : List Effect) (heffects : ∀ e ∈ effects, e ≠ .unlock) :
      (∃ r, (s.startEmpty initial effects).turn = .done r) ∧
        (∀ e ∈ (s.startEmpty initial effects).effects, e ≠ .unlock) ∧
        (s.startEmpty initial effects).state.path = s.path ∧
        (s.startEmpty initial effects).state.lock = s.lock ∧
        (s.dirty = false → (s.startEmpty initial effects).state.dirty = false) := by
    unfold startEmpty
    split
    · exact ⟨⟨_, rfl⟩, heffects, rfl, rfl, fun h => h⟩
    · exact ⟨⟨_, rfl⟩, heffects, rfl, rfl, fun h => h⟩
  have hwarning (text : String) : ∀ e ∈ [Effect.log .warning text], e ≠ .unlock := by
    intro e he
    rw [List.mem_singleton.mp he]
    exact nofun
  have hnone : ∀ e ∈ ([] : List Effect), e ≠ .unlock := fun _ h => absurd h List.not_mem_nil
  unfold loaded
  split
  · refine ⟨⟨_, rfl⟩, ?_, rfl, rfl, fun _ => rfl⟩
    simp only [Stretch.done, disagreement]
    split
    · exact hnone
    · exact hwarning _
  · exact hempty [] hnone
  · split
    · exact hempty _ (hwarning _)
    · exact hempty _ (hwarning _)
    · exact ⟨⟨_, rfl⟩, hnone, rfl, rfl, fun h => h⟩

theorem loaded_kept {s t : Index} (h : s.kept = t.kept) (initial : Bool)
    (result : Except Failure Snapshot) :
    (s.loaded initial result).state.kept = (t.loaded initial result).state.kept := by
  have hempty (effects effects' : List Effect) : (s.startEmpty initial effects).state.kept =
      (t.startEmpty initial effects').state.kept := by
    cases initial with
    | true => exact h
    | false => exact h
  unfold loaded
  split
  · rfl
  · exact hempty ..
  · split
    · exact hempty ..
    · exact hempty ..
    · exact h

namespace Session

/-- Every change is in the file, being written, marked for a later save, or left to one. -/
structure Accounted (s : Session) : Prop where
  writing : s.index.dirty = false → ∀ snapshot ∈ s.writers, snapshot = s.index.snapshot
  stored : s.index.dirty = false → s.writers = [] → Holds s.file s.index
  begun : s.writers ≠ [] → s.marks.find? Mark.isWrite = some .writeBegun
  marked : s.index.dirty = true → s.HasSaver ∨ s.LastWriteFailed ∨ s.UnwrittenSinceClear

/-- While a change is marked, only the mark is to be accounted for. -/
theorem Accounted.of_dirty {s : Session} (hdirty : s.index.dirty = true)
    (hbegun : s.writers ≠ [] → s.marks.find? Mark.isWrite = some .writeBegun)
    (hmarked : s.HasSaver ∨ s.LastWriteFailed ∨ s.UnwrittenSinceClear) : s.Accounted where
  writing := fun hclean => Bool.noConfusion (hdirty.symm.trans hclean)
  stored := fun hclean => Bool.noConfusion (hdirty.symm.trans hclean)
  begun := hbegun
  marked := fun _ => hmarked

/-- Each of the five moves keeps account of the changes. -/
theorem Accounted.move {s s' : Session} (h : s.Accounted) (hc : s.index.Consistent)
    (hm : Move s s') : s'.Accounted := by
  cases hm with
  | rest hkept hdirty hwriters hfile hmarks hsaver =>
    refine ⟨?writing, ?stored, ?begun, ?marked⟩
    case writing =>
      rw [hdirty, hwriters, snapshot_of_kept hkept]
      exact h.writing
    case stored =>
      rw [hdirty, hwriters, hfile]
      intro hd hw
      exact (h.stored hd hw).of_kept hkept
    case begun =>
      rw [hwriters, hmarks]
      exact h.begun
    case marked =>
      rw [hdirty, LastWriteFailed, UnwrittenSinceClear, hmarks]
      intro hd
      exact (h.marked hd).imp_left (hsaver hd)
  | touch hdirty hwriters hfile hsaver =>
    refine .of_dirty hdirty ?begun ?marked
    case begun =>
      -- Neither a new saver nor clearing is a write.
      rw [hwriters]
      intro hw
      rcases hsaver with ⟨-, hmarks⟩ | hmarks
      · rw [hmarks]
        exact h.begun hw
      · rw [hmarks]
        exact h.begun hw
    case marked =>
      rcases hsaver with ⟨hs, -⟩ | hmarks
      · exact .inl hs
      · refine .inr (.inr ?_)
        rw [UnwrittenSinceClear, hmarks]
        rfl
  | capture hdirty hfree hwriters hfile hmarks =>
    refine ⟨?writing, ?stored, ?begun, ?marked⟩
    case writing =>
      rw [hwriters]
      exact fun _ => List.forall_mem_singleton.mpr rfl
    case stored =>
      intro _ hw
      rw [hwriters] at hw
      cases hw
    case begun =>
      intro _
      rw [hmarks]
      rfl
    case marked =>
      intro hd
      rw [hdirty] at hd
      cases hd
  | store snapshot text hkept hdirty hwriting hwriters hwritten hfile hmarks hsaver =>
    refine ⟨?writing, ?stored, fun hw => absurd hwriters hw, ?marked⟩
    case writing =>
      rw [hwriters]
      exact fun _ _ hmem => absurd hmem List.not_mem_nil
    case stored =>
      rw [hdirty, hfile]
      intro hd _
      -- What was written is the index as it still is.
      have hsame : snapshot = s.index.snapshot := by
        apply h.writing hd
        rw [hwriting]
        exact List.mem_cons_self
      rw [hsame] at hwritten
      exact (Holds.of_text hc hwritten).of_kept hkept
    case marked =>
      rw [hdirty]
      intro hd
      -- While a write was under way, no failure was the latest.
      have hbegun := h.begun (by rw [hwriting]; exact List.cons_ne_nil _ _)
      rcases h.marked hd with hs | hf | hu
      · exact .inl (hsaver hs)
      · rw [LastWriteFailed, hbegun] at hf
        cases hf
      · refine .inr (.inr ?_)
        rw [UnwrittenSinceClear, hmarks]
        exact hu
  | fail hdirty hwriters hfile hmarks =>
    refine .of_dirty hdirty (fun hw => absurd hwriters hw) (.inr (.inl ?_))
    rw [LastWriteFailed, hmarks]
    rfl

/-- A change that came with one of some states of the index is marked, being written with one of
them, or in the file with one of them. -/
def Late (recent : Index → Prop) (s : Session) : Prop :=
  s.index.dirty = true ∨ (∃ i, recent i ∧ i.snapshot ∈ s.writers) ∨
    s.writers = [] ∧ ∃ i, recent i ∧ Holds s.file i

theorem Late.mono {recent recent' : Index → Prop} {s : Session} (h : s.Late recent)
    (hsub : ∀ i, recent i → recent' i) : s.Late recent' := by
  rcases h with hd | ⟨i, hi, hw⟩ | ⟨hw, i, hi, hf⟩
  · exact .inl hd
  · exact .inr (.inl ⟨i, hsub i hi, hw⟩)
  · exact .inr (.inr ⟨hw, i, hsub i hi, hf⟩)

theorem Late.move {recent : Index → Prop} {s s' : Session} (h : s.Late recent)
    (hconsistent : ∀ i, recent i → i.Consistent) (hrecent : recent s'.index) (hm : Move s s') :
    s'.Late recent := by
  cases hm with
  | rest hkept hdirty hwriters hfile hmarks hsaver =>
    rw [Late, hdirty, hwriters, hfile]
    exact h
  | touch hdirty hwriters hfile hsaver => exact .inl hdirty
  | capture hdirty hfree hwriters hfile hmarks =>
    refine .inr (.inl ⟨s'.index, hrecent, ?_⟩)
    rw [hwriters]
    exact List.mem_cons_self
  | store snapshot text hkept hdirty hwriting hwriters hwritten hfile hmarks hsaver =>
    -- What was being written with one of the states is in the file with it.
    rcases h with hd | ⟨i, hi, hw⟩ | ⟨hw, -⟩
    · exact .inl (hdirty.trans hd)
    · rw [hwriting, List.mem_singleton] at hw
      rw [← hw] at hwritten
      refine .inr (.inr ⟨hwriters, i, hi, ?_⟩)
      rw [hfile]
      exact .of_text (hconsistent i hi) hwritten
    · rw [hwriting] at hw
      cases hw
  | fail hdirty hwriters hfile hmarks => exact .inl hdirty

theorem wake_nextId (s : Session) (f : Flight) (result : Except Failure Unit) :
    (s.wake f result).nextId = s.nextId := by
  rcases s.wake_kinds f result with hsame | ⟨t, work, hsame, hwake, -⟩
  · rw [hsame]
  · rw [hwake, settle_nextId]
    exact hsame.nextId

theorem nextId_le_step (s : Session) (a : Action) : s.nextId ≤ (s.step a).nextId := by
  rcases s.step_cases a with hsame | ⟨t, ticket, work, hsame, -, hstep⟩ | ⟨f, result, -, -, hstep⟩
  · exact hsame.nextId.ge
  · rw [hstep, launch, settle_nextId, ← hsame.nextId]
    exact Nat.le_succ _
  · rw [hstep, wake_nextId]

/-- An index that has just been opened is bound, is what a new index finds in the file, and has
nothing under way. -/
theorem opened_spec (options : Options) (root : String) (path : Option String)
    (file : Except Failure Content) :
    (opened options root path file).Bound ∧ (opened options root path file).Accounted := by
  -- Binding the index sets out to read the file, and reading it ends the call.
  let bound : Index := { create options with
    root := some (Path.tidy root)
    path := some ((path.map Path.tidy).getD (Environment.defaultIndexPath (Path.tidy root))) }
  let work := bound.loaded true (Disk.decodeSnapshot file)
  obtain ⟨⟨r, hdone⟩, hquiet, hpath, hlock, hdirty⟩ :=
    bound.loaded_spec true (Disk.decodeSnapshot file)
  let before : Session := { fresh options file with index := bound, nextId := 1 }
  have hopened : opened options root path file =
      (before.change work.state work.effects).finish 0 none r := by
    have hsettle : opened options root path file = before.settle 0 none work := rfl
    have hadvance : before.settle 0 none work = before.advance 0 none work := by
      simp only [settle, work, hdone]
    rw [hsettle, hadvance]
    simp only [advance, work, hdone]
  have hindex : (opened options root path file).index = work.state := by
    rw [hopened, finish_index, change_index, foldl_onLock hquiet]
    rfl
  have hflights : (opened options root path file).flights = [] := by
    rw [hopened]
    exact before.change_flights ..
  have hmarks : (opened options root path file).marks = [] := by
    rw [hopened]
    exact before.change_marks ..
  have hfile : (opened options root path file).file = file := by
    rw [hopened]
    exact before.change_file ..
  have hclean : (opened options root path file).index.dirty = false := by
    rw [hindex]
    exact hdirty rfl
  have hnone : (opened options root path file).writers = [] := by
    rw [writers, hflights]
    rfl
  refine ⟨⟨?_, ?_, ?_⟩, ⟨?_, ?_, ?_, ?_⟩⟩
  · rw [hindex, hpath]
    rfl
  · intro f hf
    rw [hflights] at hf
    cases hf
  · rw [hnone, hindex, hlock]
    rfl
  · intro _ snapshot hmem
    rw [hnone] at hmem
    cases hmem
  · intro _ _
    rw [hfile, hindex]
    exact loaded_kept (s := create .default) (t := bound) rfl true _
  · intro hw
    exact absurd hnone hw
  · intro hd
    rw [hclean] at hd
    cases hd

theorem nextId_le_run (s : Session) (actions : List Action) :
    s.nextId ≤ (s.run actions).nextId := by
  induction actions generalizing s with
  | nil => exact Nat.le_refl _
  | cons a actions ih => exact Nat.le_trans (s.nextId_le_step a) (ih (s.step a))

end Session

end LiveIndex.Index
