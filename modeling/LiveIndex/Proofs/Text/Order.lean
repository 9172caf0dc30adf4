import LiveIndex.Text.Order
import Mathlib.Data.List.Nodup
import Mathlib.Data.String.Basic

/-! The order of texts. Sorted texts that are distinct rise strictly, so that they are settled by
what is among them; and a text stands before all that goes on from it. -/

namespace LiveIndex.Text

theorem nodup_eraseDups {α : Type} [DecidableEq α] (l : List α) : l.eraseDups.Nodup := by
  cases l with
  | nil => exact List.nodup_nil
  | cons a rest =>
    rw [List.eraseDups_cons, List.nodup_cons]
    constructor
    · rw [List.mem_eraseDups, List.mem_filter]
      simp
    · exact nodup_eraseDups _
termination_by l.length
decreasing_by exact Nat.lt_succ_of_le (List.length_filter_le ..)

theorem perm_sorted (ts : List String) : (sorted ts).Perm ts :=
  List.mergeSort_perm ..

theorem pairwise_sorted (ts : List String) : (sorted ts).Pairwise (· ≤ ·) := by
  have hsorted : (sorted ts).Pairwise fun a b => decide (a ≤ b) = true := by
    refine List.pairwise_mergeSort (fun a b c hab hbc => ?_) (fun a b => ?_) ts
    · exact decide_eq_true (le_trans (of_decide_eq_true hab) (of_decide_eq_true hbc))
    · simpa using le_total a b
  exact hsorted.imp of_decide_eq_true

/-- Distinct texts rise strictly when they are sorted. -/
theorem pairwise_lt_sorted {ts : List String} (h : ts.Nodup) : (sorted ts).Pairwise (· < ·) := by
  have hnodup : (sorted ts).Nodup := (perm_sorted ts).nodup_iff.mpr h
  exact ((pairwise_sorted ts).and hnodup).imp fun hboth => lt_of_le_of_ne hboth.1 hboth.2

/-- The order in which distinct texts are given is lost when they are sorted. -/
theorem sorted_congr {ts us : List String} (hts : ts.Nodup) (hus : us.Nodup)
    (hmem : ∀ t, t ∈ ts ↔ t ∈ us) : sorted ts = sorted us := by
  have hperm : (sorted ts).Perm (sorted us) :=
    ((perm_sorted ts).trans ((List.perm_ext_iff_of_nodup hts hus).mpr hmem)).trans
      (perm_sorted us).symm
  exact hperm.eq_of_pairwise (fun _ _ _ _ => le_antisymm) (pairwise_sorted ts) (pairwise_sorted us)

/-- A text stands before those that go on from it. -/
theorem lt_of_prefix {s t : String} (h : s.toList <+: t.toList) (hne : s ≠ t) : s < t := by
  obtain ⟨rest, hrest⟩ := h
  rw [String.lt_iff_toList_lt, ← hrest]
  cases rest with
  | nil =>
    rw [List.append_nil] at hrest
    exact absurd (String.toList_injective hrest) hne
  | cons c rest =>
    have hlonger : List.Lex (· < ·) (s.toList ++ []) (s.toList ++ c :: rest) :=
      List.Lex.append_left _ .nil s.toList
    rwa [List.append_nil] at hlonger

end LiveIndex.Text
