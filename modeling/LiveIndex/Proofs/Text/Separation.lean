import LiveIndex.Proofs.Text.Blank
import LiveIndex.Proofs.Text.Casing
import Mathlib.Data.List.Infix

/-! Where lower-casing cuts a text. The form of a sigma depends on the letters around it, but not on
what lies beyond a character that separates words; slashes and white space are such characters. -/

namespace LiveIndex.Text

/-- Neither a letter with case nor looked through, so that it stands between words. -/
def Separates (c : Char) : Prop :=
  isCased c = false ∧ isSkippable c = false

theorem startsCased_append {c : Char} (hc : Separates c) (u v : List Char) :
    startsCased (u ++ c :: v) = startsCased u := by
  rw [startsCased, startsCased]
  induction u with
  | nil =>
    rw [List.nil_append, List.dropWhile_cons_of_neg (by simp [hc.2])]
    simp [hc.1]
  | cons d u ih =>
    rw [List.cons_append]
    by_cases hd : isSkippable d = true
    · rw [List.dropWhile_cons_of_pos hd, List.dropWhile_cons_of_pos hd, ih]
    · rw [List.dropWhile_cons_of_neg hd, List.dropWhile_cons_of_neg hd]
      rfl

/-- What stands before a separating character makes no difference to what comes after it. -/
theorem lowerFrom_after {c : Char} (hc : Separates c) (u v w : List Char) :
    lowerFrom (u ++ c :: v) w = lowerFrom u w := by
  induction w generalizing u with
  | nil => rfl
  | cons d w ih => rw [lowerFrom, lowerFrom, startsCased_append hc, ← List.cons_append, ih (d :: u)]

/-- What comes after a separating character makes no difference to what stands before it. -/
theorem lowerFrom_before {c : Char} (hc : Separates c) (before u w : List Char) :
    lowerFrom before (u ++ c :: w) =
      lowerFrom before u ++ lowerFrom (u.reverse ++ before) (c :: w) := by
  induction u generalizing before with
  | nil => rfl
  | cons d u ih =>
    rw [List.reverse_cons, List.append_assoc, List.singleton_append, List.cons_append, lowerFrom,
      startsCased_append hc, ih (d :: before), ← List.append_assoc]
    rfl

/-- A separating character cuts a text into parts that are lower-cased on their own. -/
theorem lowerFrom_split {c : Char} (hc : Separates c) (u w : List Char) :
    lowerFrom [] (u ++ c :: w) = lowerFrom [] u ++ lowerChar c ++ lowerFrom [] w := by
  have hsigma : c ≠ 'Σ' := by
    rintro rfl
    exact absurd hc.1 (by decide +kernel)
  have hafter : lowerFrom (c :: (u.reverse ++ [])) w = lowerFrom [] w := lowerFrom_after hc [] _ w
  rw [lowerFrom_before hc, lowerFrom, if_neg hsigma, hafter, List.append_assoc]

theorem separates_slash : Separates '/' := by
  unfold Separates
  decide +kernel

theorem mem_codes_of_inRanges {ranges : List (Nat × Nat)} {n : Nat}
    (h : inRanges ranges n = true) :
    n ∈ ranges.flatMap fun r => List.range' r.1 (r.2 + 1 - r.1) := by
  obtain ⟨r, hr, hin⟩ := List.any_eq_true.mp h
  obtain ⟨hlow, hhigh⟩ : r.1 ≤ n ∧ n ≤ r.2 := by simpa using hin
  refine List.mem_flatMap.mpr ⟨r, hr, ?_⟩
  rw [List.mem_range'_1]
  omega

/-- White space stands between words. -/
theorem separates_of_blank {c : Char} (h : isBlank c = true) : Separates c := by
  -- Only some thirty code points have to be looked at.
  have hall : ∀ n ∈ blankRanges.flatMap fun r => List.range' r.1 (r.2 + 1 - r.1),
      Separates (Char.ofNat n) := by
    unfold Separates
    decide +kernel
  have hone := hall c.toNat (mem_codes_of_inRanges h)
  rwa [Char.ofNat_toNat] at hone

/-- A part between separating characters is lower-cased on its own. -/
theorem lowerFrom_infix {front back : List Char} (hfront : ∀ c ∈ front.getLast?, Separates c)
    (hback : ∀ c ∈ back.head?, Separates c) (part : List Char) :
    lowerFrom [] part <:+: lowerFrom [] (front ++ part ++ back) := by
  have hbefore : lowerFrom [] part <:+ lowerFrom [] (front ++ part) := by
    rcases List.eq_nil_or_concat front with rfl | ⟨front, c, rfl⟩
    · exact List.suffix_rfl
    · have hc : Separates c := hfront c (by simp)
      rw [List.concat_eq_append, List.append_assoc, List.singleton_append, lowerFrom_split hc]
      exact List.suffix_append _ _
  have hafter : lowerFrom [] (front ++ part) <+: lowerFrom [] (front ++ part ++ back) := by
    cases back with
    | nil => rw [List.append_nil]
    | cons c back =>
      rw [lowerFrom_split (hback c rfl), List.append_assoc]
      exact List.prefix_append _ _
  exact hbefore.isInfix.trans hafter.isInfix

/-- White space around a text is lower-cased on its own. -/
theorem lower_strip_infix (s : String) : (lower (strip s)).toList <:+: (lower s).toList := by
  obtain ⟨front, back, hsplit, hfront, hback⟩ := exists_trimBlank s.toList
  rw [toList_lower, toList_lower, strip, String.toList_ofList]
  conv_rhs => rw [hsplit]
  apply lowerFrom_infix
  · exact fun c hc => separates_of_blank (hfront c (List.mem_of_mem_getLast? hc))
  · exact fun c hc => separates_of_blank (hback c (List.mem_of_mem_head? hc))

end LiveIndex.Text
