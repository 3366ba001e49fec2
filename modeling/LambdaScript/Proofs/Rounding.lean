import Mathlib.Data.Int.Log
import Mathlib.Algebra.Order.Field.Power
import Mathlib.Algebra.Order.Field.Rat
import Mathlib.Algebra.Order.Floor.Semiring
import Mathlib.Data.Rat.Floor
import Mathlib.Tactic.FieldSimp
import Mathlib.Tactic.Linarith
import Mathlib.Tactic.Positivity
import LambdaScript.Number.Binary64
/-!
# Rounding quotients

`Binary64.nearestBits` is given a numerator and a denominator, but what it rounds is their quotient
(`nearestBits_congr`): the exponent that it chooses is the logarithm of the quotient
(`log2Quotient_eq_log`), and what it rounds to an integer is the quotient in units of that exponent
(`rescale_div`). The value of a finite double is rounded to the double itself
(`nearestBits_fraction`).
-/

namespace LambdaScript.Binary64

/-! ## Quotients -/

theorem rescale_pos {base den : Nat} (num : Nat) (exponent : Int) (hbase : 0 < base)
    (hden : 0 < den) : 0 < (rescale base num den exponent).2 := by
  rw [rescale]
  split
  · exact Nat.mul_pos hden (Nat.pow_pos hbase)
  · exact hden

/-- Rescaling divides by a power of the base. -/
theorem rescale_div {base : Nat} (num den : Nat) (exponent : Int) (hbase : 0 < base) :
    ((rescale base num den exponent).1 : ℚ) / (rescale base num den exponent).2 =
      (num : ℚ) / den / (base : ℚ) ^ exponent := by
  have hne : (base : ℚ) ≠ 0 := by positivity
  rw [rescale]
  split
  · obtain ⟨n, rfl⟩ := Int.eq_ofNat_of_zero_le (by assumption)
    rw [Int.toNat_natCast, zpow_natCast, div_div]
    push_cast [Nat.pow_eq]
    rfl
  · obtain ⟨n, hn⟩ := Int.eq_ofNat_of_zero_le (a := -exponent) (by omega)
    have hexponent : exponent = -(n : Int) := by omega
    rw [hn, hexponent, Int.toNat_natCast, zpow_neg, zpow_natCast, div_inv_eq_mul,
      div_mul_eq_mul_div]
    push_cast [Nat.pow_eq]
    rfl

theorem rescale_mul (base num den k : Nat) (exponent : Int) :
    rescale base (k * num) (k * den) exponent =
      (k * (rescale base num den exponent).1, k * (rescale base num den exponent).2) := by
  rw [rescale, rescale]
  split <;> simp only [Nat.mul_assoc]

/-- The logarithm of a quotient is known but for one from those of its parts. -/
theorem log_div_bounds {x y : ℚ} (hx : 0 < x) (hy : 0 < y) :
    Int.log 2 x - Int.log 2 y - 1 ≤ Int.log 2 (x / y) ∧
      Int.log 2 (x / y) ≤ Int.log 2 x - Int.log 2 y := by
  have hquotient : 0 < x / y := div_pos hx hy
  have hx' := Int.lt_zpow_succ_log_self (b := 2) (by decide) x
  have hy' := Int.lt_zpow_succ_log_self (b := 2) (by decide) y
  have hxle := Int.zpow_log_le_self (b := 2) (by decide) hx
  have hyle := Int.zpow_log_le_self (b := 2) (by decide) hy
  push_cast at hx' hy' hxle hyle
  constructor
  · rw [← Int.zpow_le_iff_le_log (by decide) hquotient, le_div_iff₀ hy]
    push_cast
    calc (2 : ℚ) ^ (Int.log 2 x - Int.log 2 y - 1) * y
        ≤ 2 ^ (Int.log 2 x - Int.log 2 y - 1) * 2 ^ (Int.log 2 y + 1) := by gcongr
      _ = 2 ^ Int.log 2 x := by
        rw [← zpow_add₀ (by norm_num)]
        congr 1
        omega
      _ ≤ x := hxle
  · rw [← Int.lt_add_one_iff, ← Int.lt_zpow_iff_log_lt (by decide) hquotient, div_lt_iff₀ hy]
    push_cast
    calc x < 2 ^ (Int.log 2 x + 1) := hx'
      _ = 2 ^ (Int.log 2 x - Int.log 2 y + 1) * 2 ^ Int.log 2 y := by
        rw [← zpow_add₀ (by norm_num)]
        congr 1
        omega
      _ ≤ 2 ^ (Int.log 2 x - Int.log 2 y + 1) * y := by gcongr

/-- The exponent of a quotient is its logarithm. -/
theorem log2Quotient_eq_log {num den : Nat} (hnum : 0 < num) (hden : 0 < den) :
    log2Quotient num den = Int.log 2 ((num : ℚ) / den) := by
  have hquotient : (0 : ℚ) < (num : ℚ) / den := by positivity
  have hlog (n : Nat) : (n.log2 : Int) = Int.log 2 (n : ℚ) := by
    rw [Int.log_natCast, Nat.log2_eq_log_two]
  obtain ⟨hlow, hhigh⟩ := log_div_bounds (x := num) (y := den) (by positivity) (by positivity)
  have hscaled := rescale_div num den (num.log2 - den.log2) Nat.two_pos
  have hpos := rescale_pos num (num.log2 - den.log2) Nat.two_pos hden
  rw [← hlog, ← hlog] at hlow hhigh
  rw [log2Quotient]
  generalize (num.log2 : Int) - den.log2 = guess at *
  -- the guess is the logarithm or one more, and what is left after scaling tells which
  have hfits : (rescale 2 num den guess).2 ≤ (rescale 2 num den guess).1 ↔
      guess ≤ Int.log 2 ((num : ℚ) / den) := by
    rw [← Int.zpow_le_iff_le_log (by decide) hquotient, ← Nat.cast_le (α := ℚ),
      ← one_le_div₀ (by exact_mod_cast hpos), hscaled, one_le_div₀ (by positivity)]
  show (if (rescale 2 num den guess).2 ≤ (rescale 2 num den guess).1 then guess else guess - 1) = _
  split
  · have hle := hfits.mp (by assumption)
    omega
  · have hnot := mt hfits.mpr (by assumption)
    omega

/-! ## Rounding -/

theorem roundHalfEven_mul {k : Nat} (hk : 0 < k) (num den : Nat) :
    roundHalfEven (k * num) (k * den) = roundHalfEven num den := by
  have htwice : 2 * (k * (num % den)) = k * (2 * (num % den)) := Nat.mul_left_comm ..
  simp only [roundHalfEven, Nat.mul_div_mul_left _ _ hk, Nat.mul_mod_mul_left, htwice,
    Nat.mul_lt_mul_left hk]

theorem roundHalfEven_exact {den : Nat} (hden : 0 < den) (n : Nat) :
    roundHalfEven (n * den) den = n := by
  rw [roundHalfEven, Nat.mul_div_cancel _ hden, Nat.mul_mod_left, if_pos hden]

theorem nearestBits_mul {num den k : Nat} (hk : 0 < k) (hden : 0 < den) :
    nearestBits (k * num) (k * den) = nearestBits num den := by
  by_cases hnum : num = 0
  · rw [hnum, Nat.mul_zero, nearestBits, nearestBits, if_pos rfl, if_pos rfl]
  · have hpos := Nat.pos_of_ne_zero hnum
    have hlog : log2Quotient (k * num) (k * den) = log2Quotient num den := by
      rw [log2Quotient_eq_log (Nat.mul_pos hk hpos) (Nat.mul_pos hk hden),
        log2Quotient_eq_log hpos hden]
      push_cast
      rw [mul_div_mul_left _ _ (by positivity)]
    rw [nearestBits, nearestBits, if_neg (Nat.mul_pos hk hpos).ne', if_neg hnum, hlog]
    simp only [rescale_mul, roundHalfEven_mul hk]

/-- Rounding does not depend on how a quotient is written. -/
theorem nearestBits_congr {num den num' den' : Nat} (hden : 0 < den) (hden' : 0 < den')
    (h : (num : ℚ) / den = num' / den') : nearestBits num den = nearestBits num' den' := by
  have hcross : den' * num = den * num' := by
    rw [div_eq_div_iff (by positivity) (by positivity)] at h
    have hcast : num * den' = num' * den := by exact_mod_cast h
    rw [Nat.mul_comm den', hcast, Nat.mul_comm]
  calc nearestBits num den = nearestBits (den' * num) (den' * den) :=
        (nearestBits_mul hden' hden).symm
    _ = nearestBits (den * num') (den * den') := by rw [hcross, Nat.mul_comm den' den]
    _ = nearestBits num' den' := nearestBits_mul hden hden'

/-! ## The value of a double -/

/-- The bits of a finite number, put together again. -/
theorem fraction_spec (bits : Nat) :
    leastExponent ≤ (fraction bits).2 ∧ (fraction bits).1 < 2 * leastNormal ∧
      ((fraction bits).2 = leastExponent ∨ leastNormal ≤ (fraction bits).1) ∧
      ((fraction bits).2 - leastExponent).toNat * leastNormal + (fraction bits).1 = bits := by
  simp only [fraction, leastNormal, leastExponent]
  split <;> dsimp only <;> omega

/-- The value of a double is rounded to the double. -/
theorem nearestBits_fraction {bits num den : Nat} (hbits : bits ≠ 0)
    (hfinite : bits ≤ infinityBits) (hden : 0 < den)
    (h : (num : ℚ) / den = (fraction bits).1 * 2 ^ (fraction bits).2) :
    nearestBits num den = bits := by
  obtain ⟨hleast, hmantissa, hnormal, hfraction⟩ := fraction_spec bits
  generalize (fraction bits).1 = m at *
  generalize (fraction bits).2 = e at *
  have hm : 0 < m := by
    refine Nat.pos_of_ne_zero fun hzero => ?_
    rcases hnormal with hleast | hle
    · rw [hzero, hleast] at hfraction
      exact hbits hfraction.symm
    · rw [hzero] at hle
      exact absurd hle (by decide)
  have hquotient : (0 : ℚ) < (num : ℚ) / den := by
    rw [h]
    positivity
  have hnum : 0 < num := by
    rw [div_pos_iff_of_pos_right (by positivity)] at hquotient
    exact_mod_cast hquotient
  -- the mantissa has 53 bits, or fewer if the exponent is the least one
  have hexponent : max leastExponent (log2Quotient num den - 52) = e := by
    have hhigh : Int.log 2 ((num : ℚ) / den) < 53 + e := by
      rw [← Int.lt_zpow_iff_log_lt (by decide) hquotient, h, Nat.cast_ofNat,
        zpow_add₀ (by norm_num)]
      gcongr
      exact_mod_cast hmantissa
    have hlow : leastNormal ≤ m → 52 + e ≤ Int.log 2 ((num : ℚ) / den) := by
      intro hle
      rw [← Int.zpow_le_iff_le_log (by decide) hquotient, h, Nat.cast_ofNat,
        zpow_add₀ (by norm_num)]
      gcongr
      exact_mod_cast hle
    rw [log2Quotient_eq_log hnum hden]
    rcases hnormal with heq | hle
    · omega
    · have hlow := hlow hle
      omega
  -- in units of this exponent the quotient is the mantissa, so nothing is rounded off
  have hscaled := rescale_div num den e Nat.two_pos
  have hscaledPos := rescale_pos num e Nat.two_pos hden
  have hexact : (rescale 2 num den e).1 = m * (rescale 2 num den e).2 := by
    rw [h, Nat.cast_ofNat, mul_div_cancel_right₀ _ (by positivity),
      div_eq_iff (by positivity)] at hscaled
    exact_mod_cast hscaled
  rw [nearestBits, if_neg hnum.ne', hexponent]
  show min (_ + roundHalfEven (rescale 2 num den e).1 (rescale 2 num den e).2) _ = _
  rw [hexact, roundHalfEven_exact hscaledPos, hfraction]
  exact Nat.min_eq_left hfinite

end LambdaScript.Binary64
