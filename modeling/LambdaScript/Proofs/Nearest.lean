import LambdaScript.Proofs.Decimals
/-!
# The nearest double

The doubles of one sign are counted up by their bits, and their values go up with these
(`magnitude_strictMono`). Rounding takes a quotient in units of the last place of the doubles around
it and rounds it to an integer, halves to the even one; all doubles are integers in these units, but
for those that are smaller than the quotient anyway (`magnitude_grid`). So no other double is nearer
to the quotient, and of two that are equally near the even one is taken (`nearestBits_nearest`).
Infinity stands where the next number would be behind the finite ones: at half the way to it
quotients begin to be infinite (`nearestBits_eq_infinity_iff`).

A number is read as the double nearest to what its digits spell (`Decimal.ofDigits_nearest`).
-/

namespace LambdaScript.Binary64

/-! ## The values of doubles -/

/-- The value that goes with the bits of a magnitude. It is counted on behind the finite ones. -/
def magnitude (bits : Nat) : ℚ := (fraction bits).1 * 2 ^ (fraction bits).2

/-- A mantissa rounded up to twice the least normal one is carried into the exponent. -/
theorem magnitude_add {field mantissa : Nat} (hmantissa : mantissa ≤ 2 * leastNormal)
    (hnormal : field = 0 ∨ leastNormal ≤ mantissa) :
    magnitude (field * leastNormal + mantissa) = mantissa * 2 ^ (leastExponent + field) := by
  unfold magnitude
  rcases Nat.lt_or_ge mantissa leastNormal with hsmall | hlarge
  · obtain rfl : field = 0 := hnormal.resolve_right (Nat.not_le_of_lt hsmall)
    have hfraction : fraction (0 * leastNormal + mantissa) = (mantissa, leastExponent) := by
      simp only [fraction, leastNormal] at *
      rw [if_pos (by omega), Prod.mk.injEq]
      exact ⟨by omega, rfl⟩
    rw [hfraction]
    norm_num
  rcases Nat.lt_or_eq_of_le hmantissa with hlt | rfl
  · have hfraction : fraction (field * leastNormal + mantissa) =
        (mantissa, leastExponent + field) := by
      simp only [fraction, leastNormal, leastExponent] at *
      rw [if_neg (by omega), Prod.mk.injEq]
      constructor <;> omega
    rw [hfraction]
  · have hfraction : fraction (field * leastNormal + 2 * leastNormal) =
        (leastNormal, leastExponent + field + 1) := by
      simp only [fraction, leastNormal, leastExponent]
      rw [if_neg (by omega), Prod.mk.injEq]
      constructor <;> omega
    rw [hfraction, zpow_add_one₀ (by norm_num)]
    push_cast
    ring

/-- The next double is one unit in the last place further up. -/
theorem magnitude_succ (bits : Nat) :
    magnitude (bits + 1) = magnitude bits + 2 ^ (fraction bits).2 := by
  obtain ⟨hleast, hmantissa, hnormal, hbits⟩ := fraction_spec bits
  obtain ⟨field, hfield⟩ := Int.eq_ofNat_of_zero_le (Int.sub_nonneg_of_le hleast)
  have hexponent : (fraction bits).2 = leastExponent + field := by omega
  have hsucc : bits + 1 = field * leastNormal + ((fraction bits).1 + 1) := by
    rw [hfield, Int.toNat_natCast] at hbits
    omega
  have hagain : field = 0 ∨ leastNormal ≤ (fraction bits).1 + 1 := by omega
  rw [hsucc, magnitude_add hmantissa hagain, magnitude, hexponent]
  push_cast
  ring

/-- More bits stand for more. -/
theorem magnitude_strictMono : StrictMono magnitude := by
  refine strictMono_nat_of_lt_succ fun bits => ?_
  rw [magnitude_succ]
  exact lt_add_of_pos_right _ (by positivity)

theorem magnitude_zero : magnitude 0 = 0 := by
  have hfraction : fraction 0 = (0, leastExponent) := rfl
  rw [magnitude, hfraction, Nat.cast_zero, zero_mul]

/-- Infinity stands where `2 ^ 1024` would be, … -/
theorem magnitude_infinityBits : magnitude infinityBits = 2 ^ 1024 := by
  have hfraction : fraction infinityBits = (leastNormal, 972) := rfl
  have hleast : ((leastNormal : Nat) : ℚ) = 2 ^ 52 := by norm_num
  rw [magnitude, hfraction, hleast]
  show (2 : ℚ) ^ 52 * 2 ^ ((972 : Nat) : Int) = 2 ^ 1024
  rw [zpow_natCast, ← pow_add]

/-- … behind the largest finite number. -/
theorem magnitude_last : magnitude (infinityBits - 1) = 2 ^ 1024 - 2 ^ 971 := by
  have hsucc := magnitude_succ (infinityBits - 1)
  have hfraction : (fraction (infinityBits - 1)).2 = 971 := rfl
  have hbits : infinityBits - 1 + 1 = infinityBits := rfl
  rw [hbits, magnitude_infinityBits, hfraction] at hsucc
  exact eq_sub_of_add_eq (by exact_mod_cast hsucc.symm)

/-- In units of a power of two all doubles are integers, except for those that are less than the
least normal mantissa of them. -/
theorem magnitude_grid (bits field : Nat) :
    (∃ n : Nat, magnitude bits = n * 2 ^ (leastExponent + field)) ∨
      0 < field ∧ magnitude bits < leastNormal * 2 ^ (leastExponent + field) := by
  obtain ⟨hleast, hmantissa, -, -⟩ := fraction_spec bits
  unfold magnitude
  generalize (fraction bits).1 = m at *
  generalize (fraction bits).2 = e at *
  rcases le_or_gt (leastExponent + field) e with hle | hlt
  · obtain ⟨k, hk⟩ := Int.eq_ofNat_of_zero_le (Int.sub_nonneg_of_le hle)
    have he : e = k + (leastExponent + field) := by omega
    refine .inl ⟨m * 2 ^ k, ?_⟩
    rw [he, zpow_add₀ (by norm_num), zpow_natCast]
    push_cast
    ring
  · refine .inr ⟨by omega, ?_⟩
    have hm : (m : ℚ) < 2 * leastNormal := by exact_mod_cast hmantissa
    calc (m : ℚ) * 2 ^ e ≤ m * 2 ^ (leastExponent + field - 1) := by
          gcongr
          · norm_num
          · omega
      _ < 2 * leastNormal * 2 ^ (leastExponent + field - 1) := by gcongr
      _ = leastNormal * 2 ^ (leastExponent + field) := by
        rw [zpow_sub_one₀ (by norm_num)]
        ring

/-! ## Rounding to an integer -/

/-- Among numbered values, none is nearer to `q` than this one, and none as near if its number is
odd. -/
def IsNearest (value : Nat → ℚ) (q : ℚ) (n : Nat) : Prop :=
  ∀ other, |q - value n| ≤ |q - value other| ∧
    (|q - value n| = |q - value other| → other = n ∨ n % 2 = 0)

theorem roundHalfEven_bounds (num den : Nat) :
    num / den ≤ roundHalfEven num den ∧ roundHalfEven num den ≤ num / den + 1 := by
  rw [roundHalfEven]
  split
  · omega
  · split <;> omega

/-- Nothing is rounded by more than a half, and by a half to an even number only. -/
theorem abs_sub_roundHalfEven {num den : Nat} (hden : 0 < den) :
    |(num : ℚ) / den - roundHalfEven num den| ≤ 1 / 2 ∧
      (|(num : ℚ) / den - roundHalfEven num den| = 1 / 2 → roundHalfEven num den % 2 = 0) := by
  have hd : (0 : ℚ) < den := by exact_mod_cast hden
  have hnum : (num : ℚ) / den = (num / den : Nat) + (num % den : Nat) / den := by
    have hfloor := Int.floor_add_fract ((num : ℚ) / den)
    rw [Int.fract_div_natCast_eq_div_natCast_mod, Rat.floor_natCast_div_natCast] at hfloor
    exact_mod_cast hfloor.symm
  have hrest : num % den < den := Nat.mod_lt _ hden
  rw [hnum, roundHalfEven]
  generalize num / den = q
  generalize num % den = r at *
  have hr : (0 : ℚ) ≤ r / den := by positivity
  split
  · next hbelow =>
    have hlt : (r : ℚ) / den < 1 / 2 := by
      rw [div_lt_div_iff₀ hd (by norm_num)]
      exact_mod_cast (by omega : r * 2 < 1 * den)
    rw [add_sub_cancel_left, abs_of_nonneg hr]
    exact ⟨hlt.le, fun h => absurd h hlt.ne⟩
  · split
    · next habove =>
      have hgt : 1 / 2 < (r : ℚ) / den := by
        rw [div_lt_div_iff₀ (by norm_num) hd]
        exact_mod_cast (by omega : 1 * den < r * 2)
      have hone : (r : ℚ) / den < 1 := by
        rw [div_lt_one hd]
        exact_mod_cast hrest
      push_cast
      rw [abs_of_nonpos (by linarith)]
      exact ⟨by linarith, fun h => by linarith⟩
    · next hbelow habove =>
      -- half way between two integers
      have hhalf : (r : ℚ) / den = 1 / 2 := by
        rw [div_eq_div_iff hd.ne' (by norm_num)]
        exact_mod_cast (by omega : r * 2 = 1 * den)
      refine ⟨?_, fun _ => by omega⟩
      rw [hhalf]
      rcases Nat.mod_two_eq_zero_or_one q with hq | hq <;> rw [hq] <;> push_cast <;>
        norm_num [abs_le]

/-- A quotient is rounded to the nearest integer, and halves to the even one. -/
theorem roundHalfEven_nearest {num den : Nat} (hden : 0 < den) :
    IsNearest Nat.cast (num / den) (roundHalfEven num den) := by
  intro n
  obtain ⟨hhalf, heven⟩ := @abs_sub_roundHalfEven num den hden
  by_cases hn : n = roundHalfEven num den
  · subst hn
    exact ⟨le_refl _, fun _ => .inl rfl⟩
  have hone : (1 : ℚ) ≤ |(roundHalfEven num den : ℚ) - n| := by
    have hint : (1 : ℤ) ≤ |(roundHalfEven num den : ℤ) - n| :=
      Int.one_le_abs (sub_ne_zero.mpr (by exact_mod_cast Ne.symm hn))
    exact_mod_cast hint
  have htriangle := abs_sub_le (roundHalfEven num den : ℚ) ((num : ℚ) / den) n
  have hcomm := abs_sub_comm (roundHalfEven num den : ℚ) ((num : ℚ) / den)
  exact ⟨by linarith, fun h => .inr (heven (by linarith))⟩

/-! ## Rounding to a double -/

section
variable {num den : Nat}

/-- A positive quotient has 53 bits in the units in which it is rounded, or fewer if these are the
least units. -/
theorem exists_unit (hnum : 0 < num) (hden : 0 < den) : ∃ field : Nat,
    max leastExponent (log2Quotient num den - 52) = leastExponent + field ∧
    (num : ℚ) / den < 2 * leastNormal * 2 ^ (leastExponent + field) ∧
    (field = 0 ∨ leastNormal * 2 ^ (leastExponent + field) ≤ (num : ℚ) / den) := by
  have hquotient : (0 : ℚ) < (num : ℚ) / den := by positivity
  have hlog := log2Quotient_eq_log hnum hden
  obtain ⟨field, hfield⟩ : ∃ field : Nat,
      max leastExponent (log2Quotient num den - 52) = leastExponent + field :=
    ⟨(max leastExponent (log2Quotient num den - 52) - leastExponent).toNat, by omega⟩
  have hleast : ((leastNormal : Nat) : ℚ) = 2 ^ (52 : Int) := by norm_num
  refine ⟨field, hfield, ?_, (Nat.eq_zero_or_pos field).imp_right fun hpos => ?_⟩
  · have hlt : (num : ℚ) / den < (2 : Nat) ^ (1 + 52 + (leastExponent + (field : Int))) := by
      rw [Int.lt_zpow_iff_log_lt (by decide) hquotient]
      omega
    rwa [Nat.cast_ofNat, zpow_add₀ (by norm_num), zpow_add₀ (by norm_num), zpow_one,
      ← hleast] at hlt
  · have hle : ((2 : Nat) : ℚ) ^ (52 + (leastExponent + (field : Int))) ≤ (num : ℚ) / den := by
      rw [Int.zpow_le_iff_le_log (by decide) hquotient]
      omega
    rwa [Nat.cast_ofNat, zpow_add₀ (by norm_num), ← hleast] at hle

/-- What is rounded to an integer is the quotient in these units. -/
theorem nearestBits_scaled (hnum : 0 < num) (hden : 0 < den) : ∃ field n d : Nat, 0 < d ∧
    (n : ℚ) / d * 2 ^ (leastExponent + field) = num / den ∧ n < 2 * leastNormal * d ∧
    (field = 0 ∨ leastNormal * d ≤ n) ∧
    nearestBits num den = min (field * leastNormal + roundHalfEven n d) infinityBits := by
  obtain ⟨field, hfield, hbelow, habove⟩ := exists_unit hnum hden
  have hscaled := rescale_div num den (leastExponent + field) Nat.two_pos
  have hpos := rescale_pos num (leastExponent + field) Nat.two_pos hden
  have hunit : (0 : ℚ) < 2 ^ (leastExponent + (field : Int)) := by positivity
  have hbits : nearestBits num den = min (field * leastNormal + roundHalfEven
      (rescale 2 num den (leastExponent + field)).1 (rescale 2 num den (leastExponent + field)).2)
      infinityBits := by
    simp only [nearestBits, if_neg hnum.ne', hfield, add_sub_cancel_left, Int.toNat_natCast]
  generalize (rescale 2 num den (leastExponent + field)).1 = n at *
  generalize (rescale 2 num den (leastExponent + field)).2 = d at *
  have hd : (0 : ℚ) < d := by exact_mod_cast hpos
  rw [Nat.cast_ofNat, eq_div_iff hunit.ne'] at hscaled
  refine ⟨field, n, d, hpos, hscaled, ?_, habove.imp_right fun hle => ?_, hbits⟩
  · rw [← hscaled, mul_lt_mul_iff_left₀ hunit, div_lt_iff₀ hd] at hbelow
    exact_mod_cast hbelow
  · rw [← hscaled, mul_le_mul_iff_left₀ hunit, le_div_iff₀ hd] at hle
    exact_mod_cast hle

/-- In units in which the quotient has 53 bits, a double that is no integer in them is farther from
it than the integer that it is rounded to. -/
theorem abs_sub_lt_of_small {field n d : Nat} {q small : ℚ} (hd : 0 < d)
    (hscaled : (n : ℚ) / d * 2 ^ (leastExponent + field) = q) (hle : leastNormal * d ≤ n)
    (hsmall : small < leastNormal * 2 ^ (leastExponent + field)) :
    |q - roundHalfEven n d * 2 ^ (leastExponent + field)| < |q - small| := by
  have hunit : (0 : ℚ) < 2 ^ (leastExponent + (field : Int)) := by positivity
  have hmantissa : (leastNormal : ℚ) ≤ n / d := by
    rw [le_div_iff₀ (by exact_mod_cast hd)]
    exact_mod_cast hle
  -- the least normal mantissa is between the quotient and the other double
  have hbetween : (leastNormal : ℚ) * 2 ^ (leastExponent + (field : Int)) ≤ q := by
    rw [← hscaled]
    exact mul_le_mul_of_nonneg_right hmantissa hunit.le
  have hnearest := (@roundHalfEven_nearest n d hd leastNormal).1
  calc |q - roundHalfEven n d * 2 ^ (leastExponent + (field : Int))|
      = |(n : ℚ) / d - roundHalfEven n d| * 2 ^ (leastExponent + (field : Int)) := by
        rw [← hscaled, ← sub_mul, abs_mul, abs_of_pos hunit]
    _ ≤ |(n : ℚ) / d - leastNormal| * 2 ^ (leastExponent + (field : Int)) :=
        mul_le_mul_of_nonneg_right hnearest hunit.le
    _ = q - leastNormal * 2 ^ (leastExponent + (field : Int)) := by
        rw [abs_of_nonneg (sub_nonneg.mpr hmantissa), sub_mul, hscaled]
    _ < q - small := sub_lt_sub_left hsmall _
    _ ≤ |q - small| := le_abs_self _

/-- Before it is cut off at infinity, a positive quotient is rounded to the nearest of all doubles,
and to an even one if another is as near. -/
theorem exists_nearest (hnum : 0 < num) (hden : 0 < den) :
    ∃ bits, nearestBits num den = min bits infinityBits ∧
      IsNearest magnitude (num / den) bits := by
  obtain ⟨field, n, d, hd, hscaled, hbelow, habove, hbits⟩ := nearestBits_scaled hnum hden
  refine ⟨_, hbits, fun other => ?_⟩
  obtain ⟨hlow, hhigh⟩ := roundHalfEven_bounds n d
  have hquotient : n / d < 2 * leastNormal := Nat.div_lt_of_lt_mul (by rwa [Nat.mul_comm] at hbelow)
  have hnormal : field = 0 ∨ leastNormal ≤ roundHalfEven n d :=
    habove.imp_right fun hle => Nat.le_trans ((Nat.le_div_iff_mul_le hd).mpr hle) hlow
  have hvalue := magnitude_add (by omega : roundHalfEven n d ≤ 2 * leastNormal) hnormal
  rcases magnitude_grid other field with ⟨k, hk⟩ | ⟨hfield, hsmall⟩
  · have hunit : (0 : ℚ) < 2 ^ (leastExponent + (field : Int)) := by positivity
    obtain ⟨hle, htie⟩ := @roundHalfEven_nearest n d hd k
    rw [hvalue, hk, ← hscaled, ← sub_mul, ← sub_mul, abs_mul, abs_mul, abs_of_pos hunit]
    refine ⟨mul_le_mul_of_nonneg_right hle hunit.le, fun h => ?_⟩
    rcases htie (mul_right_cancel₀ hunit.ne' h) with rfl | heven
    · exact .inl (magnitude_strictMono.injective (hk.trans hvalue.symm))
    · right
      simp only [leastNormal]
      omega
  · have hless := abs_sub_lt_of_small hd hscaled (habove.resolve_left hfield.ne') hsmall
    rw [hvalue]
    exact ⟨hless.le, fun h => absurd h hless.ne⟩

/-- The nearest number is behind the finite ones from half the way to the next number on. -/
theorem IsNearest.infinity_le_iff {q : ℚ} {bits : Nat} (h : IsNearest magnitude q bits) :
    infinityBits ≤ bits ↔ (2 : ℚ) ^ 1024 - 2 ^ 970 ≤ q := by
  have htop := magnitude_infinityBits
  have hlast : magnitude (infinityBits - 1) = 2 ^ 1024 - 2 * 2 ^ 970 := by
    have hdouble : (2 : ℚ) ^ 971 = 2 * 2 ^ 970 := pow_succ' 2 970
    rw [magnitude_last, hdouble]
  have hpos : (0 : ℚ) < 2 ^ 970 := by positivity
  generalize (2 : ℚ) ^ 970 = half at *
  generalize (2 : ℚ) ^ 1024 = top at *
  constructor
  · intro hinfinite
    have hmagnitude := magnitude_strictMono.monotone hinfinite
    obtain ⟨hle, -⟩ := h (infinityBits - 1)
    rw [hlast] at hle
    rw [htop] at hmagnitude
    by_contra hbelow
    rw [abs_of_nonpos (by linarith)] at hle
    rcases abs_cases (q - (top - 2 * half)) with ⟨habs, -⟩ | ⟨habs, -⟩ <;> linarith
  · intro hmiddle
    by_contra hfinite
    have hmagnitude := magnitude_strictMono.monotone (by omega : bits ≤ infinityBits - 1)
    obtain ⟨hle, htie⟩ := h infinityBits
    rw [hlast] at hmagnitude
    rw [htop, abs_of_nonneg (by linarith)] at hle htie
    rcases abs_cases (q - top) with ⟨habs, -⟩ | ⟨habs, -⟩ <;> rw [habs] at hle htie
    · linarith
    -- half way the largest finite number is as near, but odd
    · have hodd : bits = infinityBits - 1 := magnitude_strictMono.injective (by linarith)
      rcases htie (by linarith) with heq | heven
      · omega
      · rw [hodd] at heven
        exact absurd heven (by decide)

/-- A quotient is infinite from half the way behind the largest finite number on. -/
theorem nearestBits_eq_infinity_iff (hden : 0 < den) :
    nearestBits num den = infinityBits ↔ (2 : ℚ) ^ 1024 - 2 ^ 970 ≤ num / den := by
  rcases Nat.eq_zero_or_pos num with rfl | hnum
  · have hlarge : (2 : ℚ) ^ 970 < 2 ^ 1024 := pow_lt_pow_right₀ (by norm_num) (by norm_num)
    have hzero : nearestBits 0 den = 0 := rfl
    rw [hzero, Nat.cast_zero, zero_div]
    exact ⟨fun h => absurd h (by decide), fun h => absurd h (not_le_of_gt (sub_pos.mpr hlarge))⟩
  obtain ⟨bits, hbits, hnearest⟩ := exists_nearest hnum hden
  rw [← hnearest.infinity_le_iff]
  omega

/-- No finite double is nearer to a quotient than the one that it is rounded to, and if another is
as near then this one is even. -/
theorem nearestBits_nearest (hden : 0 < den) (hfinite : nearestBits num den < infinityBits) :
    IsNearest magnitude (num / den) (nearestBits num den) := by
  rcases Nat.eq_zero_or_pos num with rfl | hnum
  · intro other
    have hzero : nearestBits 0 den = 0 := rfl
    rw [hzero, magnitude_zero, Nat.cast_zero, zero_div, sub_self, abs_zero]
    exact ⟨abs_nonneg _, fun _ => .inr rfl⟩
  obtain ⟨bits, hbits, hnearest⟩ := exists_nearest hnum hden
  have hsame : nearestBits num den = bits := by omega
  rw [hsame]
  exact hnearest

end

/-! ## Reading numbers -/

/-- The double is finite and has this value. -/
def HasValue (x : Float) (value : ℚ) : Prop :=
  ∃ negative m e, shape x = .finite negative m e ∧
    value = (if negative then -1 else 1) * (m * 2 ^ e)

/-- The value of a finite double is the magnitude of its bits, or the opposite. -/
theorem HasValue.exists_magnitude {x : Float} {value : ℚ} (h : HasValue x value) :
    ∃ bits, bits < infinityBits ∧ (value = magnitude bits ∨ value = -magnitude bits) := by
  obtain ⟨negative, m, e, hshape, rfl⟩ := h
  unfold shape at hshape
  dsimp only at hshape
  split at hshape
  · next hfinite =>
    rw [Shape.finite.injEq] at hshape
    obtain ⟨-, rfl, rfl⟩ := hshape
    refine ⟨magnitudeBits x, hfinite, ?_⟩
    cases negative
    · exact .inl (one_mul _)
    · exact .inr (neg_one_mul _)
  · split at hshape <;> cases hshape

/-- The nearest magnitude to a number that is not negative is nearer than all negative ones, too. -/
theorem IsNearest.of_value {q value : ℚ} {nearest bits : Nat} (h : IsNearest magnitude q nearest)
    (hq : 0 ≤ q) (hvalue : value = magnitude bits ∨ value = -magnitude bits) :
    |q - magnitude nearest| ≤ |q - value| ∧
      (|q - magnitude nearest| = |q - value| →
        value = magnitude nearest ∨ (fraction nearest).1 % 2 = 0) := by
  have heven : nearest % 2 = 0 → (fraction nearest).1 % 2 = 0 := by
    have hbits := (fraction_spec nearest).2.2.2
    simp only [leastNormal] at hbits
    omega
  rcases hvalue with rfl | rfl
  · obtain ⟨hle, htie⟩ := h bits
    exact ⟨hle, fun heq => (htie heq).imp (congrArg magnitude) heven⟩
  -- zero is nearer than a negative number
  · obtain ⟨hle, htie⟩ := h 0
    have hmagnitude := magnitude_strictMono.monotone (Nat.zero_le bits)
    rw [magnitude_zero] at hle htie hmagnitude
    rw [sub_zero, abs_of_nonneg hq] at hle htie
    rw [sub_neg_eq_add, abs_of_nonneg (add_nonneg hq hmagnitude)]
    refine ⟨by linarith, fun heq => .inr (heven ?_)⟩
    rcases htie (by linarith) with rfl | hzero
    · rfl
    · exact hzero

end LambdaScript.Binary64

namespace LambdaScript

open Binary64

/-- A run of digits is read as the nearest double to the number that it spells: infinity from half
the way behind the largest finite double on, and else no finite double is nearer, and none as near
to one with an odd mantissa. -/
theorem Decimal.ofDigits_nearest (run : List Char) :
    (shape (ofDigits run) = .infinite false ∧ (2 : ℚ) ^ 1024 - 2 ^ 970 ≤ valueOfDigits run) ∨
    (valueOfDigits run : ℚ) < 2 ^ 1024 - 2 ^ 970 ∧
      ∃ m e, shape (ofDigits run) = .finite false m e ∧ ∀ other value, HasValue other value →
        |(valueOfDigits run : ℚ) - m * 2 ^ e| ≤ |(valueOfDigits run : ℚ) - value| ∧
        (|(valueOfDigits run : ℚ) - m * 2 ^ e| = |(valueOfDigits run : ℚ) - value| →
          value = m * 2 ^ e ∨ m % 2 = 0) := by
  have hshape := shape_nearest (valueOfDigits run) 1
  have hinfinite := @nearestBits_eq_infinity_iff (valueOfDigits run) 1 Nat.one_pos
  have hle := nearestBits_le (valueOfDigits run) 1
  rw [ofDigits, hshape]
  rw [Nat.cast_one, div_one] at hinfinite
  split
  · next hfinite =>
    refine .inr ⟨lt_of_not_ge fun h => hfinite.ne (hinfinite.mpr h), _, _, rfl, ?_⟩
    intro other value hvalue
    obtain ⟨bits, -, hbits⟩ := hvalue.exists_magnitude
    have hnearest := nearestBits_nearest Nat.one_pos hfinite
    rw [Nat.cast_one, div_one] at hnearest
    exact hnearest.of_value (Nat.cast_nonneg _) hbits
  · next hfinite =>
    exact .inl ⟨rfl, hinfinite.mp (Nat.le_antisymm hle (Nat.le_of_not_lt hfinite))⟩

end LambdaScript
