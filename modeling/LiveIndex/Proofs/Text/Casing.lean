import LiveIndex.Text.Casing
import Mathlib.Data.List.Basic

/-! How lower-casing keeps places. Every character but the dotted capital I has one character as its
lower-case form, and every character but the capital sigma has the same form wherever it stands. -/

namespace LiveIndex.Text

/-- Texts of ASCII characters take a way of their own, which comes to the same. -/
theorem toList_lower (s : String) : (lower s).toList = lowerFrom [] s.toList := by
  have hplain (before cs : List Char) (h : ∀ c ∈ cs, c.toNat < 128) :
      lowerFrom before cs = cs.map Char.toLower := by
    induction cs generalizing before with
    | nil => rfl
    | cons c cs ih =>
      have hc : c.toNat < 128 := h c List.mem_cons_self
      have hsigma : c ≠ 'Σ' := by
        rintro rfl
        exact absurd hc (by decide)
      rw [lowerFrom, if_neg hsigma, lowerChar, if_pos hc, ih (c :: before) fun d hd =>
        h d (List.mem_cons_of_mem c hd)]
      rfl
  rw [lower]
  split
  · next hall =>
    rw [String.toList_map, hplain]
    intro c hc
    exact of_decide_eq_true (List.all_eq_true.mp hall c hc)
  · exact String.toList_ofList

theorem length_lowerChar {c : Char} (h : c ≠ 'İ') : (lowerChar c).length = 1 := by
  have hdotted : c.toNat ≠ 0x130 := by
    intro hn
    apply h
    rw [← Char.ofNat_toNat c, hn]
  rw [lowerChar]
  split
  · rfl
  · split
    · rfl
    · rfl

theorem lowerChar_ne_nil (c : Char) : lowerChar c ≠ [] := by
  by_cases h : c = 'İ'
  · rw [h]
    decide +kernel
  · exact List.ne_nil_of_length_pos (by rw [length_lowerChar h]; exact Nat.one_pos)

/-- No character is dropped. -/
theorem lower_eq_empty_iff {s : String} : lower s = "" ↔ s = "" := by
  rw [← String.toList_eq_nil_iff, toList_lower, ← String.toList_eq_nil_iff]
  cases s.toList with
  | nil => exact iff_of_true rfl rfl
  | cons c cs =>
    refine iff_of_false ?_ (List.cons_ne_nil c cs)
    rw [lowerFrom, List.append_eq_nil_iff, not_and_or]
    left
    split
    · exact List.cons_ne_nil _ _
    · exact lowerChar_ne_nil c

/-- What comes after a text without a dotted capital I keeps its place. -/
theorem lowerFrom_append (before : List Char) {u : List Char} (hu : 'İ' ∉ u) (w : List Char) :
    ∃ u', lowerFrom before (u ++ w) = u' ++ lowerFrom (u.reverse ++ before) w ∧
      u'.length = u.length := by
  induction u generalizing before with
  | nil => exact ⟨[], rfl, rfl⟩
  | cons c u ih =>
    obtain ⟨hc, hrest⟩ := not_or.mp (mt List.mem_cons.mpr hu)
    obtain ⟨u', hlower, hlength⟩ := ih (c :: before) hrest
    rw [List.cons_append, lowerFrom, hlower]
    generalize hform : (if c = 'Σ' then
      [if startsCased before && !startsCased (u ++ w) then 'ς' else 'σ'] else lowerChar c) = form
    have hone : form.length = 1 := by
      rw [← hform]
      split
      · rfl
      · exact length_lowerChar (Ne.symm hc)
    refine ⟨form ++ u', ?_, ?_⟩
    · rw [List.append_assoc, List.reverse_cons, List.append_assoc, List.singleton_append]
    · rw [List.length_append, hone, hlength, List.length_cons, Nat.add_comm]

/-- Without a capital sigma the forms of a text do not depend on what is around it. -/
theorem lowerFrom_flatMap (before : List Char) {u : List Char} (hu : 'Σ' ∉ u) (w : List Char) :
    lowerFrom before (u ++ w) = u.flatMap lowerChar ++ lowerFrom (u.reverse ++ before) w := by
  induction u generalizing before with
  | nil => rfl
  | cons c u ih =>
    obtain ⟨hc, hrest⟩ := not_or.mp (mt List.mem_cons.mpr hu)
    rw [List.cons_append, lowerFrom, if_neg (Ne.symm hc), ih (c :: before) hrest, List.flatMap_cons,
      List.append_assoc, List.reverse_cons, List.append_assoc, List.singleton_append]

theorem length_lower {s : String} (h : 'İ' ∉ s.toList) : (lower s).toList.length = s.length := by
  obtain ⟨u', hlower, hlength⟩ := lowerFrom_append [] h []
  rw [List.append_nil] at hlower
  rw [toList_lower, hlower, lowerFrom, List.append_nil, hlength, String.length_toList]

/-- A run without capital sigma, up to whose end there is no dotted capital I, has its own
lower-case form in that of the whole text, and at its own place. -/
theorem slice_lowerFrom {u run : List Char} (hu : 'İ' ∉ u) (hrun : 'İ' ∉ run) (hsigma : 'Σ' ∉ run)
    (w : List Char) :
    ((lowerFrom [] (u ++ run ++ w)).drop u.length).take run.length = lowerFrom [] run := by
  obtain ⟨u', hbefore, hlength⟩ := lowerFrom_append [] hu (run ++ w)
  obtain ⟨run', hform, hsame⟩ := lowerFrom_append [] hrun []
  have halone : run.flatMap lowerChar = run' := by
    have hflat := lowerFrom_flatMap [] hsigma []
    rw [hform] at hflat
    exact (List.append_cancel_right hflat).symm
  rw [List.append_assoc, hbefore, ← hlength, List.drop_left, lowerFrom_flatMap _ hsigma, halone,
    ← hsame, List.take_left]
  rw [List.append_nil, lowerFrom, List.append_nil] at hform
  exact hform.symm

end LiveIndex.Text
