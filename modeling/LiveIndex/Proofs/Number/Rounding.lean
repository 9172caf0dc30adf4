import LiveIndex.Number.Rounding
import Mathlib.Algebra.Order.Field.Power
import Mathlib.Algebra.Order.Ring.Rat
import Mathlib.Data.Nat.Cast.Order.Field
import Mathlib.Data.Rat.Lemmas
import Mathlib.Tactic.GCongr
import Mathlib.Tactic.Linarith
import Mathlib.Tactic.NormNum
import Mathlib.Tactic.Ring

/-! What rounding to doubles keeps. A value is rounded to a whole number of last places and no other
such number is passed on the way, so order is kept wherever one side is such a number. -/

namespace LiveIndex.Number

variable {num den k : Nat} {q : ℚ} {e : ℤ}

/-- Rounding up does not pass a whole number. -/
theorem roundDiv_le (hden : 0 < den) (h : (num / den : ℚ) ≤ k) : roundDiv num den ≤ k := by
  have hless : num ≤ k * den := by
    rw [div_le_iff₀ (Nat.cast_pos.mpr hden)] at h
    exact_mod_cast h
  have hquotient : num / den ≤ k := Nat.div_le_of_le_mul (by rwa [Nat.mul_comm])
  have hparts : den * (num / den) + num % den = num := Nat.div_add_mod num den
  rcases hquotient.lt_or_eq with hbelow | hsame
  · rw [roundDiv]
    grind
  · -- Nothing is left over, so nothing is rounded up.
    have hnone : num % den = 0 := by
      rw [hsame, Nat.mul_comm] at hparts
      omega
    rw [roundDiv, hnone, if_pos (by omega)]
    exact hquotient

/-- Rounding down does not pass a whole number. -/
theorem le_roundDiv (hden : 0 < den) (h : (k : ℚ) ≤ num / den) : k ≤ roundDiv num den := by
  have hquotient : k ≤ num / den := by
    rw [le_div_iff₀ (Nat.cast_pos.mpr hden)] at h
    exact (Nat.le_div_iff_mul_le hden).mpr (by exact_mod_cast h)
  rw [roundDiv]
  grind

theorem twoPow_eq (e : ℤ) : twoPow e = 2 ^ e := by
  rw [twoPow]
  split
  · next hneg =>
    have hback : -((-e).toNat : ℤ) = e := by omega
    rw [Rat.mkRat_eq_div, twos]
    conv_rhs => rw [← hback, zpow_neg, zpow_natCast]
    simp
  · next hpos =>
    have hback : (e.toNat : ℤ) = e := by omega
    rw [Rat.mkRat_eq_div, twos]
    conv_rhs => rw [← hback, zpow_natCast]
    simp

/-- The two whole powers stand for one power. -/
theorem twos_eq (e : ℤ) : (twos e.toNat : ℚ) = 2 ^ e * twos (-e).toNat := by
  have hsum : e + (-e).toNat = e.toNat := by omega
  rw [twos, twos]
  push_cast [Nat.pow_eq]
  rw [← zpow_natCast, ← zpow_natCast, ← zpow_add₀ two_ne_zero, hsum]

theorem twos_pos (n : Nat) : 0 < twos n :=
  Nat.two_pow_pos n

/-- A quotient counted in places of a power of two. -/
theorem scaled_eq (num den : Nat) (e : ℤ) :
    ((num * twos (-e).toNat : Nat) : ℚ) / (den * twos e.toNat : Nat) = num / den / 2 ^ e := by
  have htwos : (twos (-e).toNat : ℚ) ≠ 0 := Nat.cast_ne_zero.mpr (twos_pos _).ne'
  push_cast
  rw [twos_eq e, div_div, ← mul_assoc, mul_div_mul_right _ _ htwos]

theorem scaled_pos (hden : 0 < den) (e : ℤ) : 0 < den * twos e.toNat :=
  Nat.mul_pos hden (twos_pos _)

/-- The exponent is that of the greatest power of two which is not above the quotient. -/
theorem binaryExponent_spec (hnum : 0 < num) (hden : 0 < den) :
    (2 : ℚ) ^ binaryExponent num den ≤ num / den ∧
      (num / den : ℚ) < 2 ^ (binaryExponent num den + 1) := by
  have hpositive : (0 : ℚ) < den := by exact_mod_cast hden
  have hnumlow : (2 : ℚ) ^ (num.log2 : ℤ) ≤ num := by
    exact_mod_cast Nat.log2_self_le hnum.ne'
  have hnumhigh : (num : ℚ) < 2 ^ ((num.log2 : ℤ) + 1) := by
    exact_mod_cast Nat.lt_log2_self (n := num)
  have hdenlow : (2 : ℚ) ^ (den.log2 : ℤ) ≤ den := by
    exact_mod_cast Nat.log2_self_le hden.ne'
  have hdenhigh : (den : ℚ) < 2 ^ ((den.log2 : ℤ) + 1) := by
    exact_mod_cast Nat.lt_log2_self (n := den)
  -- The logarithms leave two exponents open, and comparing decides between them.
  have hlow : (2 : ℚ) ^ ((num.log2 : ℤ) - den.log2 - 1) ≤ num / den := by
    rw [le_div_iff₀ hpositive]
    calc (2 : ℚ) ^ ((num.log2 : ℤ) - den.log2 - 1) * den
        ≤ 2 ^ ((num.log2 : ℤ) - den.log2 - 1) * 2 ^ ((den.log2 : ℤ) + 1) := by gcongr
      _ = 2 ^ (num.log2 : ℤ) := by
        rw [← zpow_add₀ two_ne_zero]
        congr 1
        ring
      _ ≤ num := hnumlow
  have hhigh : (num / den : ℚ) < 2 ^ ((num.log2 : ℤ) - den.log2 + 1) := by
    rw [div_lt_iff₀ hpositive]
    calc (num : ℚ) < 2 ^ ((num.log2 : ℤ) + 1) := hnumhigh
      _ = 2 ^ ((num.log2 : ℤ) - den.log2 + 1) * 2 ^ (den.log2 : ℤ) := by
        rw [← zpow_add₀ two_ne_zero]
        congr 1
        ring
      _ ≤ 2 ^ ((num.log2 : ℤ) - den.log2 + 1) * den := by gcongr
  obtain ⟨e, he⟩ : ∃ e : ℤ, e = num.log2 - den.log2 := ⟨_, rfl⟩
  have hcompare : num * twos (-e).toNat < den * twos e.toNat ↔ (num / den : ℚ) < 2 ^ e := by
    have hplaces : (0 : ℚ) < (den * twos e.toNat : Nat) := Nat.cast_pos.mpr (scaled_pos hden e)
    have htwo : (0 : ℚ) < 2 ^ e := by positivity
    rw [← Nat.cast_lt (α := ℚ), ← div_lt_one hplaces, scaled_eq, div_lt_one htwo]
  rw [binaryExponent]
  rw [← he] at hlow hhigh ⊢
  by_cases hbelow : num * twos (-e).toNat < den * twos e.toNat
  · rw [if_pos hbelow, sub_add_cancel]
    exact ⟨hlow, hcompare.mp hbelow⟩
  · rw [if_neg hbelow]
    exact ⟨not_lt.mp (mt hcompare.mpr hbelow), hhigh⟩

/-- The exponent of the last place of the double nearest to a rational. -/
def lastPlace (q : ℚ) : ℤ :=
  placeExponent q.num.natAbs q.den

/-- A positive rational in the terms that rounding works with. -/
theorem natAbs_div_den (hq : 0 < q) : (q.num.natAbs / q.den : ℚ) = q := by
  have hnum : (q.num.natAbs : ℤ) = q.num := Int.natAbs_of_nonneg (Rat.num_pos.mpr hq).le
  calc (q.num.natAbs / q.den : ℚ) = ((q.num.natAbs : ℤ) : ℚ) / q.den := by rw [Int.cast_natCast]
    _ = q := by rw [hnum, Rat.num_div_den]

theorem nearest_eq (hq : 0 < q) :
    nearest q = significand q.num.natAbs q.den * 2 ^ lastPlace q := by
  have hnum : q.num.natAbs ≠ 0 := Int.natAbs_ne_zero.mpr (Rat.num_pos.mpr hq).ne'
  rw [nearest, if_neg hq.not_gt, nearestSize, if_neg hnum, twoPow_eq, lastPlace]

/-- A whole number of greater places is one of last places as well. -/
theorem exists_mul_lastPlace (hplace : lastPlace q ≤ e) (k : Nat) :
    ∃ n : Nat, (n * 2 ^ lastPlace q : ℚ) = k * 2 ^ e := by
  refine ⟨k * 2 ^ (e - lastPlace q).toNat, ?_⟩
  have hsum : ((e - lastPlace q).toNat : ℤ) + lastPlace q = e := by omega
  push_cast
  rw [mul_assoc, ← zpow_natCast, ← zpow_add₀ two_ne_zero, hsum]

/-- A whole number of last places above a rational is not passed. -/
theorem nearest_le (hq : 0 < q) (hplace : lastPlace q ≤ e) (h : q ≤ k * 2 ^ e) :
    nearest q ≤ k * 2 ^ e := by
  have hden : 0 < q.den := q.den_pos
  obtain ⟨n, hn⟩ := exists_mul_lastPlace hplace k
  -- Both sides are counted in last places, where rounding is rounding to a whole number.
  rw [← hn] at h ⊢
  rw [nearest_eq hq]
  gcongr
  apply roundDiv_le (scaled_pos hden _)
  rw [scaled_eq, natAbs_div_den hq]
  exact (div_le_iff₀ (by positivity)).mpr h

/-- A whole number of last places below a rational is not passed. -/
theorem le_nearest (hq : 0 < q) (hplace : lastPlace q ≤ e) (h : k * 2 ^ e ≤ q) :
    k * 2 ^ e ≤ nearest q := by
  have hden : 0 < q.den := q.den_pos
  obtain ⟨n, hn⟩ := exists_mul_lastPlace hplace k
  rw [← hn] at h ⊢
  rw [nearest_eq hq]
  gcongr
  apply le_roundDiv (scaled_pos hden _)
  rw [scaled_eq, natAbs_div_den hq]
  exact (le_div_iff₀ (by positivity)).mpr h

/-- A rational below a power of two has its last place 53 places below it. -/
theorem lastPlace_le (hq : 0 < q) (hlow : -1021 ≤ e) (h : q < 2 ^ e) : lastPlace q ≤ e - 53 := by
  have hnum : 0 < q.num.natAbs := Int.natAbs_pos.mpr (Rat.num_pos.mpr hq).ne'
  have hbelow := (binaryExponent_spec hnum q.den_pos).1
  rw [natAbs_div_den hq] at hbelow
  have hexponent : binaryExponent q.num.natAbs q.den < e :=
    (zpow_lt_zpow_iff_right₀ one_lt_two).mp (hbelow.trans_lt h)
  rw [lastPlace, placeExponent]
  omega

/-- One last place is not more than the rational, unless it is below all doubles. -/
theorem two_zpow_lastPlace_le (hq : 0 < q) (h : 2 ^ (-1074 : ℤ) ≤ q) : 2 ^ lastPlace q ≤ q := by
  have hnum : 0 < q.num.natAbs := Int.natAbs_pos.mpr (Rat.num_pos.mpr hq).ne'
  have hbelow := (binaryExponent_spec hnum q.den_pos).1
  rw [natAbs_div_den hq] at hbelow
  rw [lastPlace, placeExponent]
  rcases max_cases (binaryExponent q.num.natAbs q.den - 52) (-1074) with ⟨hmax, -⟩ | ⟨hmax, -⟩
  · rw [hmax]
    calc (2 : ℚ) ^ (binaryExponent q.num.natAbs q.den - 52)
        ≤ 2 ^ binaryExponent q.num.natAbs q.den := by
          gcongr
          · exact one_le_two
          · omega
      _ ≤ q := hbelow
  · rw [hmax]
    exact h

theorem nearest_zero : nearest 0 = 0 := by
  decide +kernel

theorem nearest_one : nearest 1 = 1 := by
  decide +kernel

/-- Only what is below all doubles is rounded to nothing. -/
theorem nearest_pos (h : 2 ^ (-1074 : ℤ) ≤ q) : 0 < nearest q := by
  have hq : 0 < q := lt_of_lt_of_le (by positivity) h
  have hplace := two_zpow_lastPlace_le hq h
  calc (0 : ℚ) < 2 ^ lastPlace q := by positivity
    _ = (1 : Nat) * 2 ^ lastPlace q := by rw [Nat.cast_one, one_mul]
    _ ≤ nearest q := le_nearest hq le_rfl (by rwa [Nat.cast_one, one_mul])

/-- The double before one is not passed from below. -/
theorem nearest_le_of_gap (hq : 0 ≤ q) (h : q ≤ 1 - 2 ^ (-53 : ℤ)) :
    nearest q ≤ 1 - 2 ^ (-53 : ℤ) := by
  rcases hq.eq_or_lt with rfl | hpositive
  · rwa [nearest_zero]
  · have hone : q < 2 ^ (0 : ℤ) := by
      rw [zpow_zero]
      exact h.trans_lt (sub_lt_self 1 (by positivity))
    have hplaces : (1 - 2 ^ (-53 : ℤ) : ℚ) = (2 ^ 53 - 1 : Nat) * 2 ^ (-53 : ℤ) := by norm_num
    rw [hplaces] at h ⊢
    exact nearest_le hpositive (lastPlace_le hpositive (by omega) hone) h

/-- One is not passed from below. -/
theorem nearest_le_one (hq : 0 ≤ q) (h : q ≤ 1) : nearest q ≤ 1 := by
  rcases h.eq_or_lt with rfl | hless
  · rw [nearest_one]
  · rcases hq.eq_or_lt with rfl | hpositive
    · rw [nearest_zero]
      exact zero_le_one
    · have hplace : lastPlace q ≤ 0 := by
        have := lastPlace_le hpositive (e := 0) (by omega) (by rwa [zpow_zero])
        omega
      simpa using nearest_le (k := 1) hpositive hplace (by simpa using h)

/-- The rationals from zero on that are doubles, if there were no largest one. -/
def IsDouble (q : ℚ) : Prop :=
  ∃ (k : Nat) (e : ℤ), k ≤ 2 ^ 53 ∧ -1074 ≤ e ∧ q = k * 2 ^ e

theorem isDouble_zero : IsDouble 0 :=
  ⟨0, 0, by omega, by omega, by norm_num⟩

theorem isDouble_one : IsDouble 1 :=
  ⟨1, 0, by omega, by omega, by norm_num⟩

theorem IsDouble.nonneg (h : IsDouble q) : 0 ≤ q := by
  obtain ⟨k, e, -, -, rfl⟩ := h
  positivity

/-- Twice a double is a double. -/
theorem IsDouble.twice (h : IsDouble q) : IsDouble (q + q) := by
  obtain ⟨k, e, hk, he, rfl⟩ := h
  refine ⟨k, e + 1, hk, by omega, ?_⟩
  rw [zpow_add_one₀ two_ne_zero]
  ring

/-- Rounding leaves doubles as they are. -/
theorem IsDouble.nearest_eq_self (h : IsDouble q) : nearest q = q := by
  have hsmall (k : Nat) (e : ℤ) (hk : k < 2 ^ 53) (he : -1074 ≤ e) :
      nearest (k * 2 ^ e) = k * 2 ^ e := by
    rcases k.eq_zero_or_pos with rfl | hpositive
    · rw [Nat.cast_zero, zero_mul, nearest_zero]
    · have hq : (0 : ℚ) < k * 2 ^ e := by positivity
      have hbelow : (k * 2 ^ e : ℚ) < 2 ^ (e + 53) := by
        calc (k * 2 ^ e : ℚ) < 2 ^ (53 : ℤ) * 2 ^ e := by
              gcongr
              exact_mod_cast hk
          _ = 2 ^ (e + 53) := by rw [← zpow_add₀ two_ne_zero, add_comm]
      have hplace : lastPlace (k * 2 ^ e) ≤ e := by
        have := lastPlace_le hq (by omega) hbelow
        omega
      exact le_antisymm (nearest_le hq hplace le_rfl) (le_nearest hq hplace le_rfl)
  obtain ⟨k, e, hk, he, rfl⟩ := h
  rcases hk.lt_or_eq with hless | rfl
  · exact hsmall k e hless he
  · -- The greatest significand is half of itself in places twice as great.
    have hhalf : ((2 ^ 53 : Nat) * 2 ^ e : ℚ) = (2 ^ 52 : Nat) * 2 ^ (e + 1) := by
      rw [zpow_add_one₀ two_ne_zero]
      push_cast
      ring
    rw [hhalf]
    exact hsmall _ _ (by omega) (by omega)

/-- Rounding gives doubles. -/
theorem isDouble_nearest (hq : 0 ≤ q) : IsDouble (nearest q) := by
  rcases hq.eq_or_lt with rfl | hpositive
  · rw [nearest_zero]
    exact isDouble_zero
  · have hnum : 0 < q.num.natAbs := Int.natAbs_pos.mpr (Rat.num_pos.mpr hpositive).ne'
    have hbelow := (binaryExponent_spec hnum q.den_pos).2
    rw [natAbs_div_den hpositive] at hbelow
    have hplace : binaryExponent q.num.natAbs q.den + 1 ≤ 53 + lastPlace q := by
      rw [lastPlace, placeExponent]
      omega
    refine ⟨significand q.num.natAbs q.den, lastPlace q, ?_, le_max_right _ _,
      nearest_eq hpositive⟩
    apply roundDiv_le (scaled_pos q.den_pos _)
    rw [scaled_eq, natAbs_div_den hpositive, div_le_iff₀ (by positivity)]
    calc q ≤ 2 ^ (binaryExponent q.num.natAbs q.den + 1) := hbelow.le
      _ ≤ 2 ^ (53 + lastPlace q) := zpow_le_zpow_right₀ one_le_two hplace
      _ = 2 ^ (53 : ℤ) * 2 ^ lastPlace q := zpow_add₀ two_ne_zero _ _
      _ = (2 ^ 53 : Nat) * 2 ^ lastPlace q := by norm_num

end LiveIndex.Number
