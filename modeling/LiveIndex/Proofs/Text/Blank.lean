import LiveIndex.Text.Blank
import Mathlib.Data.List.Basic

/-! What trimming takes away. It is white space on both sides, and nothing of a text that neither
begins nor ends with white space. -/

namespace LiveIndex.Text

variable {cs : List Char}

/-- Neither the first nor the last character is white space. -/
def Trimmed (cs : List Char) : Prop :=
  (∀ c ∈ cs.head?, isBlank c = false) ∧ ∀ c ∈ cs.getLast?, isBlank c = false

theorem trimmed_of_forall (h : ∀ c ∈ cs, isBlank c = false) : Trimmed cs :=
  ⟨fun c hc => h c (List.mem_of_mem_head? hc), fun c hc => h c (List.mem_of_mem_getLast? hc)⟩

theorem trimmed_singleton {c : Char} (hc : isBlank c = false) : Trimmed [c] :=
  trimmed_of_forall (List.forall_mem_singleton.mpr hc)

/-- The beginning and the end decide. -/
theorem Trimmed.append (h : Trimmed cs) (hne : cs ≠ []) {ds : List Char} (hd : Trimmed ds)
    (hdne : ds ≠ []) (middle : List Char) : Trimmed (cs ++ (middle ++ ds)) := by
  constructor
  · rw [List.head?_append_of_ne_nil _ hne]
    exact h.1
  · rw [← List.append_assoc, List.getLast?_append_of_ne_nil _ hdne]
    exact hd.2

theorem Trimmed.prepend (h : Trimmed cs) (hne : cs ≠ []) {c : Char} (hc : isBlank c = false)
    (ds : List Char) : Trimmed (c :: (ds ++ cs)) :=
  (trimmed_singleton hc).append (List.cons_ne_nil _ _) h hne ds

theorem dropWhile_eq_self {p : Char → Bool} (h : ∀ c ∈ cs.head?, p c = false) :
    cs.dropWhile p = cs := by
  cases cs with
  | nil => rfl
  | cons c cs => exact List.dropWhile_cons_of_neg (by simp [h c rfl])

theorem trimBlank_of_trimmed (h : Trimmed cs) : trimBlank cs = cs := by
  have hback : ∀ c ∈ cs.reverse.head?, isBlank c = false := by
    rw [List.head?_reverse]
    exact h.2
  rw [trimBlank, dropWhile_eq_self h.1, dropWhile_eq_self hback, List.reverse_reverse]

/-- What trimming takes away is white space on both sides. -/
theorem exists_trimBlank (cs : List Char) :
    ∃ front back, cs = front ++ trimBlank cs ++ back ∧ (∀ c ∈ front, isBlank c = true) ∧
      ∀ c ∈ back, isBlank c = true := by
  refine ⟨cs.takeWhile isBlank, ((cs.dropWhile isBlank).reverse.takeWhile isBlank).reverse, ?_, ?_,
    ?_⟩
  · rw [trimBlank, List.append_assoc, ← List.reverse_append, List.takeWhile_append_dropWhile,
      List.reverse_reverse, List.takeWhile_append_dropWhile]
  · exact fun c hc => List.all_eq_true.mp List.all_takeWhile c hc
  · exact fun c hc => List.all_eq_true.mp List.all_takeWhile c (List.mem_reverse.mp hc)

end LiveIndex.Text
