import Mathlib.Data.List.Basic
import Mathlib.Data.List.Nodup

/-! What all schedules have in common: effects are performed one after another, and a call that goes
on leaves those that wait. -/

namespace LiveIndex

/-- Effects leave alone what each of them leaves alone. -/
theorem foldl_field {σ ε α : Type} {perform : σ → ε → σ} (field : σ → α)
    (h : ∀ s e, field (perform s e) = field s) (effects : List ε) (s : σ) :
    field (effects.foldl perform s) = field s := by
  induction effects generalizing s with
  | nil => rfl
  | cons e effects ih => rw [List.foldl_cons, ih, h]

/-- What is found by its number is taken out, and what is around it stays. -/
theorem eraseP_of_find? {α : Type} {number : α → Nat} {n : Nat} {a : α} {l : List α}
    (h : l.find? (fun b => number b = n) = some a) :
    ∃ l₁ l₂, l = l₁ ++ a :: l₂ ∧ l.eraseP (fun b => number b = number a) = l₁ ++ l₂ := by
  obtain ⟨ha, l₁, l₂, hsplit, hbefore⟩ := List.find?_eq_some_iff_append.mp h
  refine ⟨l₁, l₂, hsplit, ?_⟩
  have hn : number a = n := of_decide_eq_true ha
  have hnone : ∀ b ∈ l₁, ¬decide (number b = number a) = true := by
    intro b hb
    have hne := hbefore b hb
    rw [hn]
    simpa using hne
  rw [hsplit, List.eraseP_append_right _ hnone, List.eraseP_cons_of_pos (by simp)]

/-- What is in a list of things with numbers of their own is found by its number. -/
theorem find?_of_nodup {α : Type} {number : α → Nat} {l : List α} (h : (l.map number).Nodup)
    {a : α} (ha : a ∈ l) : l.find? (fun b => number b = number a) = some a := by
  cases hfind : l.find? (fun b => number b = number a) with
  | none => exact absurd (decide_eq_true rfl) (List.find?_eq_none.mp hfind a ha)
  | some b =>
    have hsame : number b = number a := by simpa using List.find?_some hfind
    rw [List.inj_on_of_nodup_map h (List.mem_of_find?_eq_some hfind) ha hsame]

end LiveIndex
