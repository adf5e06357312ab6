import Mathlib.Algebra.Order.Field.Power
import Mathlib.Algebra.Order.Field.Rat
import Mathlib.Data.Nat.Log
import Mathlib.Data.Rat.Cast.Order
import Mathlib.Tactic.FieldSimp
import Mathlib.Tactic.GCongr
import Mathlib.Tactic.Linarith
import Mathlib.Tactic.NormNum
import Mathlib.Tactic.Positivity
import Mathlib.Tactic.Ring
import Zipship.Number.Rounding

/-!
# Rounding keeps the order

A larger quotient is never rounded to a smaller number (`divHalfEven_mono`), and a whole quotient is
kept (`divHalfEven_mul`). So a number that is between two whole ones stays between them, and the
same goes for the two roundings that are made of this one: a whole number to 53 significant bits
(`value_ofNat_mono`, with `value_ofNat_of_lt` for those that have no more bits than that) and a
number to some decimal places (`scaled_mono`).
-/

namespace Zipship.Number

variable {a b c d k n m : Nat}

/-! ## To whole numbers -/

theorem div_le_divHalfEven (num den : Nat) : num / den ≤ divHalfEven num den := by
  unfold divHalfEven
  dsimp only
  split_ifs <;> omega

theorem divHalfEven_le_div (num den : Nat) : divHalfEven num den ≤ num / den + 1 := by
  unfold divHalfEven
  dsimp only
  split_ifs <;> omega

/-- A larger quotient is not rounded to a smaller number. -/
theorem divHalfEven_mono (hb : 0 < b) (hd : 0 < d) (h : a * d ≤ c * b) :
    divHalfEven a b ≤ divHalfEven c d := by
  have ha : b * (a / b) + a % b = a := Nat.div_add_mod a b
  have hc : d * (c / d) + c % d = c := Nat.div_add_mod c d
  have hquotient : a / b ≤ c / d := by
    rw [Nat.le_div_iff_mul_le hd]
    refine Nat.le_of_mul_le_mul_right (le_trans ?_ h) hb
    calc a / b * d * b = b * (a / b) * d := by ring
      _ ≤ a * d := Nat.mul_le_mul_right d (Nat.mul_div_le a b)
  rcases Nat.lt_or_eq_of_le hquotient with hlt | heq
  · calc divHalfEven a b ≤ a / b + 1 := divHalfEven_le_div a b
      _ ≤ c / d := hlt
      _ ≤ divHalfEven c d := div_le_divHalfEven c d
  · -- between the same two whole numbers the remainders decide
    have hrest : a % b * d ≤ c % d * b := by
      rw [← ha, ← hc, heq] at h
      nlinarith [h]
    have hup : b ≤ 2 * (a % b) → d ≤ 2 * (c % d) := by
      intro hhalf
      refine Nat.le_of_mul_le_mul_right ?_ hb
      calc d * b ≤ d * (2 * (a % b)) := Nat.mul_le_mul_left d hhalf
        _ = 2 * (a % b * d) := by ring
        _ ≤ 2 * (c % d * b) := Nat.mul_le_mul_left 2 hrest
        _ = 2 * (c % d) * b := by ring
    have hover : b < 2 * (a % b) → d < 2 * (c % d) := by
      intro hhalf
      refine Nat.lt_of_mul_lt_mul_right (a := b) ?_
      calc d * b < d * (2 * (a % b)) := Nat.mul_lt_mul_of_pos_left hhalf hd
        _ = 2 * (a % b * d) := by ring
        _ ≤ 2 * (c % d * b) := Nat.mul_le_mul_left 2 hrest
        _ = 2 * (c % d) * b := by ring
    unfold divHalfEven
    dsimp only
    rw [heq]
    split_ifs <;> omega

/-- A whole quotient is kept. -/
theorem divHalfEven_mul (k : Nat) (hd : 0 < d) : divHalfEven (k * d) d = k := by
  unfold divHalfEven
  rw [Nat.mul_div_cancel k hd, Nat.mul_mod_left]
  exact if_pos hd

theorem le_divHalfEven (hd : 0 < d) (h : k * d ≤ a) : k ≤ divHalfEven a d := by
  rw [← divHalfEven_mul k hd]
  exact divHalfEven_mono hd hd (Nat.mul_le_mul_right d h)

theorem divHalfEven_le (hd : 0 < d) (h : a ≤ k * d) : divHalfEven a d ≤ k := by
  conv_rhs => rw [← divHalfEven_mul k hd]
  exact divHalfEven_mono hd hd (Nat.mul_le_mul_right d h)

/-- An even number is reached half a unit before it. -/
theorem divHalfEven_lt_iff (hd : 0 < d) (hk : k % 2 = 0) :
    divHalfEven a d < k ↔ 2 * a + d < 2 * k * d := by
  have ha : d * (a / d) + a % d = a := Nat.div_add_mod a d
  have hr : a % d < d := Nat.mod_lt a hd
  rcases Nat.lt_trichotomy (a / d + 1) k with hlt | rfl | hgt
  · have hbelow : (a / d + 2) * d ≤ k * d := Nat.mul_le_mul_right d hlt
    have hle := divHalfEven_le_div a d
    refine iff_of_true (by omega) ?_
    nlinarith
  · -- just below it the quotient is odd, so a half goes up
    have hexpand : 2 * (a / d + 1) * d = 2 * (d * (a / d)) + 2 * d := by ring
    rw [hexpand]
    unfold divHalfEven
    dsimp only
    split_ifs <;> omega
  · have habove : k * d ≤ d * (a / d) := by
      rw [Nat.mul_comm]
      exact Nat.mul_le_mul_left d (by omega)
    have hle := div_le_divHalfEven a d
    have htwice : 2 * k * d = 2 * (k * d) := Nat.mul_assoc 2 k d
    refine iff_of_false (by omega) ?_
    omega

namespace Binary

variable {x y : Binary} {p : Nat} {e : Int}

/-! ## The number that is meant -/

/-- The number as a fraction. -/
def value (x : Binary) : ℚ := x.mantissa * 2 ^ x.exponent

theorem den_pos (x : Binary) : 0 < x.den := Nat.pow_pos (by decide)

theorem value_eq_div (x : Binary) : x.value = x.num / x.den := by
  have hpow : (2 : ℚ) ^ x.exponent = 2 ^ x.exponent.toNat / 2 ^ (-x.exponent).toNat := by
    rw [← zpow_natCast, ← zpow_natCast, ← zpow_sub₀ (by norm_num)]
    congr 1
    omega
  simp only [value, num, den, hpow, Nat.pow_eq, Nat.cast_mul, Nat.cast_pow, Nat.cast_ofNat,
    mul_div_assoc]

theorem value_shiftDown (x : Binary) (k : Nat) : (x.shiftDown k).value = x.value / 2 ^ k := by
  simp only [value, shiftDown, zpow_sub₀ (two_ne_zero' ℚ), zpow_natCast, mul_div_assoc]

/-! ## To decimal places -/

/-- A larger number does not get fewer places. -/
theorem scaled_mono (p : Nat) (h : x.value ≤ y.value) : x.scaled p ≤ y.scaled p := by
  rw [value_eq_div, value_eq_div, div_le_div_iff₀ (mod_cast x.den_pos) (mod_cast y.den_pos)] at h
  have hcross : x.num * y.den ≤ y.num * x.den := by exact_mod_cast h
  refine divHalfEven_mono x.den_pos y.den_pos ?_
  calc x.num * Nat.pow 10 p * y.den = x.num * y.den * Nat.pow 10 p := by ring
    _ ≤ y.num * x.den * Nat.pow 10 p := Nat.mul_le_mul_right _ hcross
    _ = y.num * Nat.pow 10 p * x.den := by ring

theorem le_scaled (p : Nat) (h : (k : ℚ) ≤ x.value * 10 ^ p) : k ≤ x.scaled p := by
  rw [value_eq_div, div_mul_eq_mul_div, le_div_iff₀ (mod_cast x.den_pos)] at h
  exact le_divHalfEven x.den_pos (by exact_mod_cast h)

theorem scaled_le (p : Nat) (h : x.value * 10 ^ p ≤ k) : x.scaled p ≤ k := by
  rw [value_eq_div, div_mul_eq_mul_div, div_le_iff₀ (mod_cast x.den_pos)] at h
  exact divHalfEven_le x.den_pos (by exact_mod_cast h)

/-- An even count of places is reached half a place before it. -/
theorem scaled_lt_iff (p : Nat) (hk : k % 2 = 0) :
    x.scaled p < k ↔ 2 * (x.value * 10 ^ p) + 1 < 2 * k := by
  have hden : (0 : ℚ) < x.den := mod_cast x.den_pos
  have hvalue : 2 * (x.value * 10 ^ p) + 1 = (2 * (x.num * 10 ^ p) + x.den) / x.den := by
    rw [value_eq_div]
    field_simp
  rw [scaled, divHalfEven_lt_iff x.den_pos hk, hvalue, div_lt_iff₀ hden]
  exact_mod_cast Iff.rfl

/-- What is shown is off by half a place at most. -/
theorem abs_scaled_sub_le (x : Binary) (p : Nat) :
    |(x.scaled p : ℚ) - x.value * 10 ^ p| ≤ 1 / 2 := by
  have hden : (0 : ℚ) < x.den := mod_cast x.den_pos
  obtain ⟨hbelow, habove⟩ := divHalfEven_near (x.num * Nat.pow 10 p) x.den_pos
  have hbelow' : 2 * (x.num * 10 ^ p : ℚ) ≤ (2 * x.scaled p + 1) * x.den := by
    exact_mod_cast hbelow
  have habove' : 2 * (x.scaled p : ℚ) * x.den ≤ 2 * (x.num * 10 ^ p) + x.den := by
    exact_mod_cast habove
  have hnum : (x.num * 10 ^ p : ℚ) = x.value * 10 ^ p * x.den := by
    rw [value_eq_div]
    field_simp
  rw [hnum] at hbelow' habove'
  rw [abs_le]
  constructor <;> nlinarith

/-! ## To 53 bits -/

/-- On one grid a larger quotient is not rounded to a smaller number. -/
theorem value_onGrid_mono (hb : 0 < b) (hd : 0 < d) (h : a * d ≤ c * b) :
    (onGrid a b e).value ≤ (onGrid c d e).value := by
  have hpos (k : Int) : 0 < Nat.pow 2 k.toNat := Nat.pow_pos (by decide)
  have hmantissa : (onGrid a b e).mantissa ≤ (onGrid c d e).mantissa := by
    refine divHalfEven_mono (Nat.mul_pos hb (hpos e)) (Nat.mul_pos hd (hpos e)) ?_
    calc a * Nat.pow 2 (-e).toNat * (d * Nat.pow 2 e.toNat)
        = a * d * (Nat.pow 2 (-e).toNat * Nat.pow 2 e.toNat) := by ring
      _ ≤ c * b * (Nat.pow 2 (-e).toNat * Nat.pow 2 e.toNat) := Nat.mul_le_mul_right _ h
      _ = c * Nat.pow 2 (-e).toNat * (b * Nat.pow 2 e.toNat) := by ring
  have hcast : ((onGrid a b e).mantissa : ℚ) ≤ (onGrid c d e).mantissa := mod_cast hmantissa
  exact mul_le_mul_of_nonneg_right hcast (by positivity)

theorem ofNat_eq_onGrid (hn : n ≠ 0) : ofNat n = onGrid n 1 (n.log2 - 52) := by
  have hone : Nat.log2 1 = 0 := by decide
  have hlow : 2 ^ n.log2 ≤ n := Nat.log2_self_le hn
  have hexponent :
      (n.log2 : Int) - (Nat.log2 1 : Int) - (precision : Int) + precision = n.log2 := by
    rw [hone]
    simp
  have hgrid : gridExponent n 1 = n.log2 - 52 := by
    unfold gridExponent
    dsimp only
    rw [hexponent, if_pos (by simpa using hlow), hone, precision]
    omega
  rw [ofNat, ofQuotient, if_neg hn, hgrid]

/-- The mantissa of a rounded number has 53 bits, or is the next power of two. -/
theorem mantissa_ofNat (hn : n ≠ 0) :
    2 ^ 52 ≤ (ofNat n).mantissa ∧ (ofNat n).mantissa ≤ 2 ^ 53 := by
  have hlow : 2 ^ n.log2 ≤ n := Nat.log2_self_le hn
  have hhigh : n < 2 ^ (n.log2 + 1) := Nat.lt_log2_self
  have hpos : 0 < 1 * Nat.pow 2 ((n.log2 : Int) - 52).toNat :=
    Nat.mul_pos one_pos (Nat.pow_pos (by decide))
  -- both sides as a power of two, whichever way the grid lies
  have hpow (i : Nat) : 2 ^ (52 + i) * (1 * Nat.pow 2 ((n.log2 : Int) - 52).toNat) =
      2 ^ (n.log2 + i) * Nat.pow 2 (-((n.log2 : Int) - 52)).toNat := by
    rw [one_mul, Nat.pow_eq, Nat.pow_eq, ← pow_add, ← pow_add]
    congr 1
    omega
  rw [ofNat_eq_onGrid hn]
  constructor
  · refine le_divHalfEven hpos ?_
    rw [hpow 0]
    exact Nat.mul_le_mul_right _ hlow
  · refine divHalfEven_le hpos ?_
    rw [hpow 1]
    exact Nat.mul_le_mul_right _ hhigh.le

/-- A rounded number lies between the powers of two between which the number lies. -/
theorem value_ofNat_bounds (hn : n ≠ 0) :
    (2 : ℚ) ^ n.log2 ≤ (ofNat n).value ∧ (ofNat n).value ≤ 2 ^ (n.log2 + 1) := by
  obtain ⟨hlow, hhigh⟩ := mantissa_ofNat hn
  have hexponent : (ofNat n).exponent = n.log2 - 52 := by rw [ofNat_eq_onGrid hn, onGrid]
  have hpow (i : Nat) : (2 : ℚ) ^ (n.log2 + i) = 2 ^ (52 + i) * 2 ^ (ofNat n).exponent := by
    rw [hexponent, ← zpow_natCast, ← zpow_natCast, ← zpow_add₀ (by norm_num)]
    congr 1
    push_cast
    ring
  have hlow' : (2 : ℚ) ^ (52 + 0) ≤ (ofNat n).mantissa := by exact_mod_cast hlow
  have hhigh' : ((ofNat n).mantissa : ℚ) ≤ 2 ^ (52 + 1) := by exact_mod_cast hhigh
  constructor
  · calc (2 : ℚ) ^ n.log2 = 2 ^ (52 + 0) * 2 ^ (ofNat n).exponent := hpow 0
      _ ≤ (ofNat n).value := mul_le_mul_of_nonneg_right hlow' (by positivity)
  · rw [hpow 1]
    exact mul_le_mul_of_nonneg_right hhigh' (by positivity)

/-- A number of at most 53 bits is kept. -/
theorem value_ofNat_of_lt (h : n < 2 ^ 53) : (ofNat n).value = n := by
  by_cases hn : n = 0
  · subst hn
    simp [value, ofNat, ofQuotient]
  · have hlog : n.log2 < 53 := (Nat.log2_lt hn).mpr h
    have hmantissa : (onGrid n 1 (n.log2 - 52)).mantissa = n * 2 ^ (52 - n.log2) := by
      have hdown : ((n.log2 : Int) - 52).toNat = 0 := by omega
      have hup : (-((n.log2 : Int) - 52)).toNat = 52 - n.log2 := by omega
      rw [onGrid, hdown, hup]
      simpa using divHalfEven_mul (n * 2 ^ (52 - n.log2)) one_pos
    have hexponent : (n.log2 : Int) - 52 = -((52 - n.log2 : Nat) : Int) := by omega
    rw [ofNat_eq_onGrid hn, value, hmantissa]
    show (((n * 2 ^ (52 - n.log2) : Nat) : ℚ)) * 2 ^ ((n.log2 : Int) - 52) = n
    rw [hexponent, zpow_neg, zpow_natCast, Nat.cast_mul, Nat.cast_pow, Nat.cast_ofNat]
    field_simp

/-- A larger number is not rounded to a smaller one. -/
theorem value_ofNat_mono (h : n ≤ m) : (ofNat n).value ≤ (ofNat m).value := by
  by_cases hn : n = 0
  · subst hn
    have hzero : (ofNat 0).value = 0 := by simp [value, ofNat, ofQuotient]
    rw [hzero]
    exact mul_nonneg (Nat.cast_nonneg _) (by positivity)
  have hm : m ≠ 0 := by omega
  rcases Nat.lt_or_ge n.log2 m.log2 with hlog | hlog
  · calc (ofNat n).value ≤ 2 ^ (n.log2 + 1) := (value_ofNat_bounds hn).2
      _ ≤ 2 ^ m.log2 := pow_le_pow_right₀ (by norm_num) hlog
      _ ≤ (ofNat m).value := (value_ofNat_bounds hm).1
  · -- with as many bits both are rounded on one grid
    have hsame : n.log2 = m.log2 := by
      refine le_antisymm ?_ hlog
      rw [Nat.log2_eq_log_two, Nat.log2_eq_log_two]
      exact Nat.log_mono_right h
    rw [ofNat_eq_onGrid hn, ofNat_eq_onGrid hm, hsame]
    exact value_onGrid_mono one_pos one_pos (by omega)

/-- Rounding does not carry a number over a whole one of at most 53 bits. -/
theorem natCast_le_value_ofNat_iff (h : k < 2 ^ 53) : (k : ℚ) ≤ (ofNat n).value ↔ k ≤ n := by
  rcases Nat.lt_or_ge n (2 ^ 53) with hn | hn
  · rw [value_ofNat_of_lt hn, Nat.cast_le]
  · have hkn : k ≤ n := h.le.trans hn
    refine iff_of_true ?_ hkn
    rw [← value_ofNat_of_lt h]
    exact value_ofNat_mono hkn

end Binary

end Zipship.Number
