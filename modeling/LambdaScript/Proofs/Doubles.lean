import Mathlib
import LambdaScript.Number.Binary64
/-!
# The order of doubles

A double is known by its 64 bits. `Binary64.IsNaN` says which bits stand for no number, and
`Binary64.rank` counts the others up from zero and down below it, both zeros at the same place. Two
doubles compare as their ranks do, and a NaN compares with nothing (`compare_unpack`). So `<` and
`==` on doubles can be read off the bits (`lt_iff`, `beq_iff`).
-/

namespace LambdaScript.Binary64

open Float.Model (UnpackedFloat Format)
open Float.Model.UnpackedFloat

/-- The bits stand for no number. -/
def IsNaN (bits : UInt64) : Prop := infinityBits < bits.toNat % signBit

instance (bits : UInt64) : Decidable (IsNaN bits) :=
  inferInstanceAs (Decidable (infinityBits < bits.toNat % signBit))

/-- A magnitude counted up from zero, or down. -/
def signed (negative : Bool) (n : Nat) : Int := if negative then -n else n

/-- Where the double with these bits stands among all others. -/
def rank (bits : UInt64) : Int := signed (signBit ≤ bits.toNat) (bits.toNat % signBit)

/-! ## Fields -/

section
variable (b : BitVec 64)

theorem toNat_unpackMantissa :
    (@unpackMantissa Format.binary64 b).toNat = b.toNat % signBit % leastNormal := by
  simp only [unpackMantissa, BitVec.toNat_cast, BitVec.extractLsb_toNat, Nat.shiftRight_zero,
    signBit, leastNormal]
  omega

theorem toNat_unpackExponent :
    (@unpackExponent Format.binary64 b).toNat = b.toNat % signBit / leastNormal := by
  simp only [unpackExponent, BitVec.toNat_cast, BitVec.extractLsb_toNat,
    Nat.shiftRight_eq_div_pow, signBit, leastNormal]
  omega

theorem unpackExponent_eq_neg_one :
    @unpackExponent Format.binary64 b = -1#_ ↔ b.toNat % signBit / leastNormal = 2047 := by
  rw [← toNat_unpackExponent, ← BitVec.toNat_inj]
  rfl

theorem unpackExponent_eq_zero :
    @unpackExponent Format.binary64 b = 0#_ ↔ b.toNat % signBit / leastNormal = 0 := by
  rw [← toNat_unpackExponent, ← BitVec.toNat_inj]
  rfl

theorem unpackMantissa_eq_zero :
    @unpackMantissa Format.binary64 b = 0#_ ↔ b.toNat % signBit % leastNormal = 0 := by
  rw [← toNat_unpackMantissa, ← BitVec.toNat_inj]
  rfl

theorem toNat_one_append (m : BitVec 52) : (1#1 ++ m).toNat = m.toNat + leastNormal := by
  have hor := Nat.two_pow_add_eq_or_of_lt m.isLt 1
  rw [BitVec.toNat_append, Nat.shiftLeft_eq]
  simp only [Nat.mul_one] at hor
  simp only [BitVec.toNat_ofNat, Nat.reducePow, Nat.one_mod, Nat.one_mul, leastNormal] at hor ⊢
  omega

theorem toNat_unpackSign : (@unpackSign Format.binary64 b).toNat = b.toNat / signBit := by
  have hlt := b.isLt
  simp only [unpackSign, BitVec.toNat_cast, BitVec.extractLsb_toNat, Nat.shiftRight_eq_div_pow,
    signBit]
  omega

/-- The sign of a double that is negative, or not. -/
def signOf (negative : Bool) : Sign := if negative then .negative else .positive

theorem ofBitVec_unpackSign :
    Sign.ofBitVec (@unpackSign Format.binary64 b) = signOf (signBit ≤ b.toNat) := by
  have hsign := toNat_unpackSign b
  have hlt := b.isLt
  simp only [signBit] at hsign
  by_cases hneg : signBit ≤ b.toNat
  · have hne : @unpackSign Format.binary64 b ≠ 0#1 := by
      intro heq
      rw [heq, BitVec.toNat_zero] at hsign
      simp only [signBit] at hneg
      omega
    rw [Sign.ofBitVec, if_neg hne, signOf, decide_eq_true hneg]
    rfl
  · have heq : @unpackSign Format.binary64 b = 0#1 := by
      rw [← BitVec.toNat_inj, hsign, BitVec.toNat_zero]
      simp only [signBit] at hneg
      omega
    rw [Sign.ofBitVec, if_pos heq, signOf, decide_eq_false hneg]
    rfl

end

/-! ## Bits read and written -/

theorem fraction_pos {n : Nat} (h : n ≠ 0) : 0 < (fraction n).1 := by
  simp only [fraction, leastNormal]
  split
  · show 0 < n % 0x10000000000000
    omega
  · show 0 < n % 0x10000000000000 + 0x10000000000000
    omega

/-- What the bits stand for, the sign apart from the others. -/
def decoded (negative : Bool) (n : Nat) : UnpackedFloat :=
  if infinityBits < n then .notANumber
  else if n = infinityBits then .infinity (signOf negative)
  else if h : n = 0 then .zero (signOf negative)
  else .finite (signOf negative) (fraction n).1 (fraction n).2 (fraction_pos h)

theorem decoded_nan {n : Nat} (negative : Bool) (h : infinityBits < n) :
    decoded negative n = .notANumber := if_pos h

theorem decoded_infinity (negative : Bool) :
    decoded negative infinityBits = .infinity (signOf negative) := rfl

theorem decoded_zero (negative : Bool) : decoded negative 0 = .zero (signOf negative) := rfl

theorem decoded_finite {n : Nat} (negative : Bool) (hpos : n ≠ 0) (h : n < infinityBits) :
    decoded negative n =
      .finite (signOf negative) (fraction n).1 (fraction n).2 (fraction_pos hpos) := by
  rw [decoded, if_neg (Nat.lt_asymm h), if_neg (Nat.ne_of_lt h), dif_neg hpos]

theorem unpack_eq_decoded (b : BitVec 64) :
    UnpackedFloat.unpack Format.binary64 b =
      decoded (signBit ≤ b.toNat) (b.toNat % signBit) := by
  have hlt : b.toNat % signBit < signBit := Nat.mod_lt _ (by decide)
  have hm := toNat_unpackMantissa b
  have he := toNat_unpackExponent b
  have hlead : (1#1 ++ @unpackMantissa Format.binary64 b).toNat = _ :=
    (toNat_one_append _).trans (congrArg (· + leastNormal) hm)
  have hones := unpackExponent_eq_neg_one b
  have hnone := unpackExponent_eq_zero b
  have hempty := unpackMantissa_eq_zero b
  have hbias : (Format.binary64.exponentBias : Int) = 1023 := rfl
  generalize b.toNat % signBit = n at *
  simp only [UnpackedFloat.unpack, ofBitVec_unpackSign, hones, hnone, hempty, hm, he, hlead, hbias]
  simp only [signBit, leastNormal] at hlt ⊢
  have hbits : infinityBits = 0x7FF0000000000000 := rfl
  split_ifs with hinf hm hsub hm
  · rw [show n = infinityBits by omega, decoded_infinity]
  · exact (decoded_nan _ (by omega)).symm
  · rw [show n = 0 by omega, decoded_zero]
  · rw [decoded_finite _ (by omega) (by omega)]
    simp [fraction, leastNormal, hsub]
  · rw [decoded_finite _ (by omega) (by omega)]
    simp [fraction, leastNormal, hsub]

/-- The bits of the double that is made from bits. -/
theorem toBits_ofBits (bits : UInt64) :
    (Float.ofBits bits).toBits = UInt64.ofBitVec
      (UnpackedFloat.pack Format.binary64 (UnpackedFloat.unpack Format.binary64 bits.toBitVec)) :=
  rfl

theorem isNaNBits_iff (bits : UInt64) :
    @isNaNBits Format.binary64 bits.toBitVec = true ↔ IsNaN bits := by
  have hlt : bits.toNat % signBit < signBit := Nat.mod_lt _ (by decide)
  rw [isNaNBits, decide_eq_true_iff, unpackExponent_eq_neg_one, Ne, unpackMantissa_eq_zero,
    UInt64.toNat_toBitVec]
  simp only [IsNaN, infinityBits, signBit, leastNormal] at *
  omega

/-- Bits that stand for a number are those of the double made from them. -/
theorem toBits_ofBits_of_not_isNaN {bits : UInt64} (h : ¬ IsNaN bits) :
    (Float.ofBits bits).toBits = bits := by
  rw [toBits_ofBits, pack_unpack, if_neg (mt (isNaNBits_iff bits).1 h)]

/-- A double stands for a number exactly if the bits it was made from do. -/
theorem isNaN_toBits_ofBits (bits : UInt64) : IsNaN (Float.ofBits bits).toBits ↔ IsNaN bits := by
  by_cases h : IsNaN bits
  · have hbits : UnpackedFloat.unpack Format.binary64 bits.toBitVec = .notANumber := by
      rw [unpack_eq_decoded]
      exact decoded_nan _ h
    rw [toBits_ofBits, hbits]
    exact iff_of_true (by decide) h
  · rw [toBits_ofBits_of_not_isNaN h]

/-! ## Comparison -/

theorem fraction_lt {n m : Nat} (h : n < m) :
    (fraction n).2 < (fraction m).2 ∨
      (fraction n).2 = (fraction m).2 ∧ (fraction n).1 < (fraction m).1 := by
  simp only [fraction, leastNormal, leastExponent]
  split <;> split <;> dsimp only <;> omega

/-- The exponent of a fraction decides first, then its mantissa; together they are in the order of
the bits. -/
theorem compare_fraction (n m : Nat) :
    (compare (fraction n).2 (fraction m).2).then (compare (fraction n).1 (fraction m).1) =
      compare n m := by
  rcases Nat.lt_trichotomy n m with h | rfl | h
  · rw [Nat.compare_eq_lt.2 h]
    rcases fraction_lt h with he | ⟨he, hm⟩
    · rw [Int.compare_eq_lt.2 he]; rfl
    · rw [Int.compare_eq_eq.2 he, Nat.compare_eq_lt.2 hm]; rfl
  · simp only [Std.compare_self, Ordering.then_eq]
  · rw [Nat.compare_eq_gt.2 h]
    rcases fraction_lt h with he | ⟨he, hm⟩
    · rw [Int.compare_eq_gt.2 he]; rfl
    · rw [Int.compare_eq_eq.2 he.symm, Nat.compare_eq_gt.2 hm]; rfl

theorem magnitude_cases {n : Nat} (h : n ≤ infinityBits) :
    (n ≠ 0 ∧ n < infinityBits) ∨ (n = 0 ∨ n = infinityBits) := by omega

theorem compare_eq_of {x y : Int} {o : Ordering}
    (h : match o with | .lt => x < y | .eq => x = y | .gt => y < x) : o = compare x y := by
  cases o with
  | lt => exact (Int.compare_eq_lt.2 h).symm
  | eq => exact (Int.compare_eq_eq.2 h).symm
  | gt => exact (Int.compare_eq_gt.2 h).symm

theorem compare_decoded_finite {n m : Nat} (s t : Bool) (hn : n ≠ 0 ∧ n < infinityBits)
    (hm : m ≠ 0 ∧ m < infinityBits) :
    (decoded s n).compare (decoded t m) = some (compare (signed s n) (signed t m)) := by
  rw [decoded_finite _ hn.1 hn.2, decoded_finite _ hm.1 hm.2]
  have hcast : compare n m = compare (n : Int) m := by
    grind [Nat.compare_eq_ite_lt, Int.compare_eq_ite_lt]
  have hneg : (compare n m).swap = compare (-n : Int) (-m) := by
    rw [Nat.compare_swap]
    grind [Nat.compare_eq_ite_lt, Int.compare_eq_ite_lt]
  cases s <;> cases t
  · exact congrArg some ((compare_fraction n m).trans hcast)
  · exact congrArg some (compare_eq_of (show -(m : Int) < n by omega))
  · exact congrArg some (compare_eq_of (show -(n : Int) < m by omega))
  · exact congrArg some ((congrArg Ordering.swap (compare_fraction n m)).trans hneg)

theorem compare_finite_left {n m : Nat} (s t : Bool) (hn : n ≠ 0 ∧ n < infinityBits)
    (hm : m = 0 ∨ m = infinityBits) :
    (decoded s n).compare (decoded t m) = some (compare (signed s n) (signed t m)) := by
  have hbits : infinityBits = 0x7FF0000000000000 := rfl
  rw [decoded_finite _ hn.1 hn.2]
  rcases hm with rfl | rfl <;> cases s <;> cases t <;>
    exact congrArg some (compare_eq_of (by simp [signed]; omega))

theorem compare_finite_right {n m : Nat} (s t : Bool) (hn : n = 0 ∨ n = infinityBits)
    (hm : m ≠ 0 ∧ m < infinityBits) :
    (decoded s n).compare (decoded t m) = some (compare (signed s n) (signed t m)) := by
  have hbits : infinityBits = 0x7FF0000000000000 := rfl
  rw [decoded_finite _ hm.1 hm.2]
  rcases hn with rfl | rfl <;> cases s <;> cases t <;>
    exact congrArg some (compare_eq_of (by simp [signed]; omega))

theorem compare_decoded {n m : Nat} (s t : Bool) (hn : n ≤ infinityBits) (hm : m ≤ infinityBits) :
    (decoded s n).compare (decoded t m) = some (compare (signed s n) (signed t m)) := by
  rcases magnitude_cases hn with hn | hn <;> rcases magnitude_cases hm with hm | hm
  · exact compare_decoded_finite s t hn hm
  · exact compare_finite_left s t hn hm
  · exact compare_finite_right s t hn hm
  · rcases hn with rfl | rfl <;> rcases hm with rfl | rfl <;> cases s <;> cases t <;> rfl

/-- Doubles compare as their ranks do, and a NaN with nothing. -/
theorem compare_unpack (x y : Float) :
    x.toModel.unpack.compare y.toModel.unpack =
      if IsNaN x.toBits ∨ IsNaN y.toBits then none
      else some (compare (rank x.toBits) (rank y.toBits)) := by
  have hunpack (z : Float) : z.toModel.unpack =
      decoded (signBit ≤ z.toBits.toNat) (z.toBits.toNat % signBit) := unpack_eq_decoded _
  rw [hunpack, hunpack]
  by_cases hx : IsNaN x.toBits
  · rw [if_pos (.inl hx), decoded_nan _ hx]
    rfl
  by_cases hy : IsNaN y.toBits
  · rw [if_pos (.inr hy), decoded_nan _ hy]
    cases decoded (signBit ≤ x.toBits.toNat) (x.toBits.toNat % signBit) <;> rfl
  · rw [if_neg (not_or.2 ⟨hx, hy⟩), compare_decoded _ _ (Nat.not_lt.1 hx) (Nat.not_lt.1 hy)]
    rfl

theorem lt_iff {x y : Float} :
    x < y ↔ ¬ (IsNaN x.toBits ∨ IsNaN y.toBits) ∧ rank x.toBits < rank y.toBits := by
  show decide (x.toModel.unpack.lt y.toModel.unpack = true) = true ↔ _
  rw [decide_eq_true_iff, UnpackedFloat.lt, compare_unpack]
  split
  · simp [*]
  · simp [*, Int.compare_eq_lt]

theorem beq_iff {x y : Float} :
    (x == y) = true ↔ ¬ (IsNaN x.toBits ∨ IsNaN y.toBits) ∧ rank x.toBits = rank y.toBits := by
  show x.toModel.unpack.beq y.toModel.unpack = true ↔ _
  rw [UnpackedFloat.beq, compare_unpack]
  split
  · simp [*]
  · simp [*]

/-- Doubles made from bits are in the order of the ranks of the bits. -/
theorem ofBits_lt_iff {m n : UInt64} :
    Float.ofBits m < Float.ofBits n ↔ ¬ (IsNaN m ∨ IsNaN n) ∧ rank m < rank n := by
  rw [lt_iff, isNaN_toBits_ofBits, isNaN_toBits_ofBits]
  refine and_congr_right fun h => ?_
  rw [not_or] at h
  rw [toBits_ofBits_of_not_isNaN h.1, toBits_ofBits_of_not_isNaN h.2]

/-- Doubles made from bits are equal if the bits have the same rank. -/
theorem ofBits_beq_iff {m n : UInt64} :
    (Float.ofBits m == Float.ofBits n) = true ↔ ¬ (IsNaN m ∨ IsNaN n) ∧ rank m = rank n := by
  rw [beq_iff, isNaN_toBits_ofBits, isNaN_toBits_ofBits]
  refine and_congr_right fun h => ?_
  rw [not_or] at h
  rw [toBits_ofBits_of_not_isNaN h.1, toBits_ofBits_of_not_isNaN h.2]

/-- The two zeros have the same rank. -/
example : rank 0x8000000000000000 = rank 0 := by decide

end LambdaScript.Binary64
