import LiveIndex.Text.Split
import Mathlib.Data.List.Infix

/-! Where a text occurs in another. -/

namespace LiveIndex.Text

variable {part text : List Char}

/-- A text that is found stands at the place that is named. -/
theorem find?_eq_some {i : Nat} (h : find? part text = some i) :
    ∃ before after, text = before ++ part ++ after ∧ before.length = i := by
  induction text generalizing i with
  | nil =>
    rw [find?] at h
    split at h
    · next hempty =>
      refine ⟨[], [], ?_, by simpa using h⟩
      rw [List.isEmpty_iff.mp hempty, List.append_nil, List.append_nil]
    · cases h
  | cons c text ih =>
    rw [find?] at h
    split at h
    · next hstarts =>
      obtain ⟨after, hafter⟩ := List.isPrefixOf_iff_prefix.mp hstarts
      exact ⟨[], after, hafter.symm, by simpa using h⟩
    · obtain ⟨k, hk, rfl⟩ := Option.map_eq_some_iff.mp h
      obtain ⟨before, after, rfl, rfl⟩ := ih hk
      exact ⟨c :: before, after, rfl, List.length_cons⟩

/-- Nothing is found exactly where the text does not occur. -/
theorem find?_eq_none_iff : find? part text = none ↔ ¬ part <:+: text := by
  induction text with
  | nil => simp [find?, List.infix_nil]
  | cons c text ih =>
    rw [find?, List.infix_cons_iff, not_or, ← ih, ← List.isPrefixOf_iff_prefix]
    split
    · next hstarts => simp [hstarts]
    · next hstarts => simp [hstarts]

theorem occursIn_iff {part text : String} :
    occursIn part text = true ↔ part.toList <:+: text.toList := by
  rw [occursIn, Option.isSome_iff_ne_none]
  exact not_iff_comm.mp find?_eq_none_iff.symm

end LiveIndex.Text
