import LiveIndex.Json.Reader
import LiveIndex.Number.Fixed
import LiveIndex.Time.Reading
import Mathlib.Algebra.Group.Nat.Defs
import Mathlib.Data.List.TakeDrop

/-! Decimal digits read back. A number is written with its digits alone or padded to a width, and
both readers find that number again and stop where the digits stop. -/

namespace LiveIndex

/-- A run ends where the first character comes that does not belong to it. -/
theorem span_append {p : Char → Bool} {front r : List Char} (hfront : ∀ c ∈ front, p c = true)
    (hback : ∀ c ∈ r.head?, p c = false) : (front ++ r).span p = (front, r) := by
  rw [List.span_eq_takeWhile_dropWhile, List.takeWhile_append_of_pos hfront,
    List.dropWhile_append_of_pos hfront]
  cases r with
  | nil => simp
  | cons c r => simp [hback c rfl]

end LiveIndex

namespace LiveIndex.Number

theorem ofDigits_chars (cs : List Char) :
    ofDigits (cs.map fun c => c.toNat - 48) = Nat.ofDigitChars 10 cs 0 := by
  rw [ofDigits, List.foldl_map]
  rfl

/-- Beyond zero a number has no zero in front. -/
theorem toDigits_head (n : Nat) (hn : 0 < n) (ds : List Char) :
    Nat.toDigits 10 n ≠ '0' :: ds := by
  induction n using Nat.strongRecOn generalizing ds with
  | _ n ih =>
    intro h
    by_cases hlt : n < 10
    · -- A single digit zero is the digit of zero.
      rw [Nat.toDigits_of_lt_base hlt] at h
      have hzero : n.digitChar.toNat - 48 = 0 := by
        rw [(List.cons.inj h).1]
        rfl
      rw [Nat.toNat_digitChar_sub_48_of_lt_ten hlt] at hzero
      omega
    · rw [Nat.toDigits_of_base_le (by omega) (by omega)] at h
      -- The digits of a tenth come first, and a tenth is not zero either.
      cases hfront : Nat.toDigits 10 (n / 10) with
      | nil => exact Nat.toDigits_ne_nil hfront
      | cons d front =>
        rw [hfront, List.cons_append, List.cons.injEq] at h
        exact ih (n / 10) (by omega) (by omega) front (hfront.trans (by rw [h.1]))

theorem length_toDigits {width n : Nat} (hw : 0 < width) (h : n < tens width) :
    (Nat.toDigits 10 n).length ≤ width :=
  (Nat.length_toDigits_le_iff (by decide) hw).mpr h

theorem isDigit_of_mem_paddedDigits {w n : Nat} {c : Char} (h : c ∈ paddedDigits w n) :
    c.isDigit = true := by
  rw [paddedDigits, List.mem_append] at h
  rcases h with h | h
  · rw [(List.mem_replicate.mp h).2]
    rfl
  · exact Nat.isDigit_of_mem_toDigits (by decide) (by decide) h

theorem length_paddedDigits {w n : Nat} (hw : 0 < w) (h : n < 10 ^ w) :
    (paddedDigits w n).length = w := by
  have hle := length_toDigits hw h
  simp only [paddedDigits, zeros, List.length_append, List.length_replicate]
  omega

theorem ofDigitChars_paddedDigits (width n : Nat) :
    Nat.ofDigitChars 10 (paddedDigits width n) 0 = n := by
  rw [paddedDigits, zeros, Nat.ofDigitChars_append, Nat.ofDigitChars_replicate_zero,
    Nat.mul_zero, Nat.ofDigitChars_ten_toDigits]

end LiveIndex.Number

namespace LiveIndex.Time

theorem filterMap_digit? {cs : List Char} (h : ∀ c ∈ cs, c.isDigit = true) :
    cs.filterMap digit? = cs.map fun c => c.toNat - 48 := by
  induction cs with
  | nil => rfl
  | cons c cs ih =>
    have hc : digit? c = some (c.toNat - 48) := if_pos (h c List.mem_cons_self)
    rw [List.filterMap_cons_some hc, List.map_cons,
      ih fun c hc => h c (List.mem_cons_of_mem _ hc)]

/-- Padded digits are read as the number that they show. -/
theorem digits?_padded {width n : Nat} (hw : 0 < width) (h : n < 10 ^ width) (rest : List Char) :
    digits? width (Number.paddedDigits width n ++ rest) = some (n, rest) := by
  have hlength := Number.length_paddedDigits hw h
  have hdigit : ∀ c ∈ Number.paddedDigits width n, c.isDigit = true := fun _ =>
    Number.isDigit_of_mem_paddedDigits
  rw [digits?, List.take_left' hlength, List.drop_left' hlength,
    if_pos ⟨hlength, List.all_eq_true.mpr hdigit⟩, filterMap_digit? hdigit,
    Number.ofDigits_chars, Number.ofDigitChars_paddedDigits]

end LiveIndex.Time

namespace LiveIndex.Json

theorem isDigit_of_isDigit {c : Char} (h : c.isDigit = true) : isDigit c = true := by
  simp only [Char.isDigit, Bool.and_eq_true, decide_eq_true_eq] at h
  simp only [isDigit, Bool.and_eq_true, decide_eq_true_eq]
  exact ⟨h.1, h.2⟩

theorem isDigit_toDigits (n : Nat) : ∀ c ∈ Nat.toDigits 10 n, isDigit c = true :=
  fun _ h => isDigit_of_isDigit (Nat.isDigit_of_mem_toDigits (by decide) (by decide) h)

theorem digitsValue_toDigits (n : Nat) : digitsValue (Nat.toDigits 10 n) = n := by
  rw [digitsValue, Number.ofDigits_chars, Nat.ofDigitChars_ten_toDigits]

end LiveIndex.Json
