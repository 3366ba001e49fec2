import LambdaScript.Number.Decimal
import LambdaScript.Proofs.Doubles
import LambdaScript.Proofs.Rounding
/-!
# The text of a number tells the number

The decimal that is chosen for a double reads back as this double (`Decimal.nearestBits_shortest`):
one that is found on a grid was tried, and behind the search stands the value itself. What is
written of a decimal tells its value (`Decimal.textValue_positional`), and the value is all that
reading back depends on. So finite doubles that are not negative have different texts
(`numberText_inj`).

Such a text consists of digits, with a point at most between them.
-/

namespace LambdaScript

namespace Decimal

/-- The number that a decimal stands for. -/
def value (d : Decimal) : ℚ := d.digits * 10 ^ d.exponent

/-- What is rounded when a decimal is read back is its value. -/
theorem rescale_value (d : Decimal) : ((Binary64.rescale 10 d.digits 1 (-d.exponent)).1 : ℚ) /
    (Binary64.rescale 10 d.digits 1 (-d.exponent)).2 = d.value := by
  rw [Binary64.rescale_div _ _ _ (by decide), Nat.cast_one, div_one, zpow_neg, div_inv_eq_mul,
    Nat.cast_ofNat, value]

theorem rescale_pos (d : Decimal) : 0 < (Binary64.rescale 10 d.digits 1 (-d.exponent)).2 :=
  Binary64.rescale_pos _ _ (by decide) (by decide)

/-- Reading back depends on the value only. -/
theorem nearestBits_congr {d d' : Decimal} (h : d.value = d'.value) :
    d.nearestBits = d'.nearestBits :=
  Binary64.nearestBits_congr d.rescale_pos d'.rescale_pos
    (d.rescale_value.trans (h.trans d'.rescale_value.symm))

/-- The value of a double reads back as the double. -/
theorem nearestBits_of_value {d : Decimal} {bits : Nat} (hbits : bits ≠ 0)
    (hfinite : bits ≤ Binary64.infinityBits)
    (h : d.value = (Binary64.fraction bits).1 * 2 ^ (Binary64.fraction bits).2) :
    d.nearestBits = bits :=
  Binary64.nearestBits_fraction hbits hfinite d.rescale_pos (d.rescale_value.trans h)

theorem value_trim (digits : Nat) (exponent : Int) :
    (trim digits exponent).value = (⟨digits, exponent⟩ : Decimal).value := by
  fun_induction trim digits exponent with
  | case1 digits exponent h ih =>
    have hdigits : (digits : ℚ) = (digits / 10 : Nat) * 10 := by
      exact_mod_cast (Nat.div_mul_cancel (Nat.dvd_of_mod_eq_zero h.2)).symm
    rw [ih, value, value, hdigits, zpow_add_one₀ (by norm_num)]
    ring
  | case2 digits exponent h => rfl

/-- An expansion is exact. -/
theorem value_expansion (mantissa : Nat) (exponent : Int) :
    (expansion mantissa exponent).value = mantissa * 2 ^ exponent := by
  rw [expansion]
  split
  · obtain ⟨n, rfl⟩ := Int.eq_ofNat_of_zero_le (by assumption)
    rw [value, Int.toNat_natCast, zpow_natCast, zpow_zero, mul_one]
    push_cast [Nat.pow_eq]
    rfl
  · obtain ⟨n, hn⟩ := Int.eq_ofNat_of_zero_le (a := -exponent) (by omega)
    have hexponent : exponent = -(n : Int) := by omega
    have hten : (10 : ℚ) = 2 * 5 := by norm_num
    rw [value, hn, hexponent, Int.toNat_natCast, hten, mul_zpow, zpow_neg, zpow_neg, zpow_natCast,
      zpow_natCast]
    push_cast [Nat.pow_eq]
    field_simp

theorem nearestBits_of_onGrid? {num den bits : Nat} {exponent : Int} {d : Decimal}
    (h : onGrid? num den bits exponent = some d) : d.nearestBits = bits := by
  unfold onGrid? at h
  dsimp only at h
  split at h
  · rename_i hbelow
    cases h
    exact hbelow.1
  · split at h
    · rename_i habove
      cases h
      exact habove
    · contradiction

/-- The decimal that is chosen for a double reads back as the double. -/
theorem nearestBits_shortest {bits : Nat} (hbits : bits ≠ 0)
    (hfinite : bits ≤ Binary64.infinityBits) : (shortest bits).nearestBits = bits := by
  rw [shortest]
  dsimp only
  rw [nearestBits_congr (value_trim _ _)]
  generalize hfound : List.findSome? _ _ = found
  -- that seventeen digits suffice is not needed, since what stands behind the search is exact
  cases found with
  | none => exact nearestBits_of_value hbits hfinite (value_expansion _ _)
  | some d =>
    obtain ⟨k, -, hgrid⟩ := List.exists_of_findSome?_eq_some hfound
    exact nearestBits_of_onGrid? hgrid

/-! ## Texts -/

/-- The number that a text of digits stands for, with a point or without. -/
def textValue (text : List Char) : ℚ :=
  Nat.ofDigitChars 10 (text.filter (· != '.')) 0 / 10 ^ ((text.dropWhile (· != '.')).length - 1)

theorem textValue_whole {digits : List Char} (h : '.' ∉ digits) :
    textValue digits = Nat.ofDigitChars 10 digits 0 := by
  have hne : ∀ c ∈ digits, (c != '.') = true := fun c hc =>
    bne_iff_ne.mpr fun heq => h (heq ▸ hc)
  rw [textValue, List.filter_eq_self.mpr hne, List.dropWhile_eq_nil_iff.mpr hne, List.length_nil,
    Nat.zero_sub, pow_zero, div_one]

theorem textValue_point {whole places : List Char} (hwhole : '.' ∉ whole) (hplaces : '.' ∉ places) :
    textValue (whole ++ '.' :: places) =
      Nat.ofDigitChars 10 (whole ++ places) 0 / 10 ^ places.length := by
  have hne {digits : List Char} (h : '.' ∉ digits) : ∀ c ∈ digits, (c != '.') = true := fun c hc =>
    bne_iff_ne.mpr fun heq => h (heq ▸ hc)
  rw [textValue, List.filter_append, List.filter_cons_of_neg (by decide),
    List.filter_eq_self.mpr (hne hwhole), List.filter_eq_self.mpr (hne hplaces),
    List.dropWhile_append_of_pos (hne hwhole), List.dropWhile_cons_of_neg (by decide),
    List.length_cons, Nat.add_sub_cancel]

theorem point_notMem_toDigits (n : Nat) : '.' ∉ Nat.toDigits 10 n := fun hmem => by
  have hdigit := Nat.isDigit_of_mem_toDigits (by decide) (by decide) hmem
  contradiction

/-- A decimal can be told from its text. -/
theorem textValue_positional (d : Decimal) : textValue d.positional = d.value := by
  have hdigits : Nat.ofDigitChars 10 (Nat.toDigits 10 d.digits) 0 = d.digits :=
    Nat.ofDigitChars_ten_toDigits
  have hpoint := point_notMem_toDigits d.digits
  rw [positional, value]
  generalize Nat.toDigits 10 d.digits = digits at *
  dsimp only
  split
  · -- zeros behind the digits, and no point
    obtain ⟨n, hn⟩ := Int.eq_ofNat_of_zero_le (a := d.exponent) (by assumption)
    rw [hn, Int.toNat_natCast, textValue_whole (by simp [hpoint]), Nat.ofDigitChars_append, hdigits,
      Nat.ofDigitChars_replicate_zero, zpow_natCast]
    push_cast
    rw [mul_comm]
  · obtain ⟨n, hn⟩ := Int.eq_ofNat_of_zero_le (a := -d.exponent) (by omega)
    have hexponent : d.exponent = -(n : Int) := by omega
    rw [hn, hexponent, Int.toNat_natCast, zpow_neg, zpow_natCast, ← div_eq_mul_inv]
    split
    · -- the point stands between two digits
      rw [textValue_point (fun hmem => hpoint (List.mem_of_mem_take hmem))
        (fun hmem => hpoint (List.mem_of_mem_drop hmem)), List.take_append_drop, hdigits,
        List.length_drop, Nat.sub_sub_self (by omega)]
    · -- the point stands in front of all digits, and more zeros stand between
      have hzeros : ['0'] ++ (List.replicate (n - digits.length) '0' ++ digits) =
          List.replicate (n - digits.length + 1) '0' ++ digits := rfl
      have hlength : (List.replicate (n - digits.length) '0' ++ digits).length = n := by
        rw [List.length_append, List.length_replicate]
        omega
      have hvalue := textValue_point (show '.' ∉ ['0'] by decide)
        (show '.' ∉ List.replicate (n - digits.length) '0' ++ digits by simp [hpoint])
      rw [hzeros, hlength, Nat.ofDigitChars_append, Nat.ofDigitChars_replicate_zero, Nat.mul_zero,
        hdigits] at hvalue
      exact hvalue

/-- A text of digits in which there is a point at most behind the first of them. -/
structure Numeral (text : List Char) : Prop where
  head : ∃ c rest, text = c :: rest ∧ c.isDigit = true
  only : ∀ c ∈ text, c.isDigit = true ∨ c = '.'

theorem numeral_of_digits {digits : List Char} (hne : digits ≠ [])
    (h : ∀ c ∈ digits, c.isDigit = true) : Numeral digits where
  head := by
    obtain ⟨c, rest, rfl⟩ := List.exists_cons_of_ne_nil hne
    exact ⟨c, rest, rfl, h c List.mem_cons_self⟩
  only c hc := .inl (h c hc)

theorem numeral_point {whole places : List Char} (h : Numeral whole)
    (hplaces : ∀ c ∈ places, c.isDigit = true) : Numeral (whole ++ '.' :: places) where
  head := by
    obtain ⟨c, rest, rfl, hc⟩ := h.head
    exact ⟨c, rest ++ '.' :: places, rfl, hc⟩
  only c hc := by
    rcases List.mem_append.mp hc with hwhole | hpoint
    · exact h.only c hwhole
    · rcases List.mem_cons.mp hpoint with rfl | hplace
      · exact .inr rfl
      · exact .inl (hplaces c hplace)

theorem numeral_positional (d : Decimal) : Numeral d.positional := by
  have hdigits : ∀ c ∈ Nat.toDigits 10 d.digits, c.isDigit = true := fun c hc =>
    Nat.isDigit_of_mem_toDigits (by decide) (by decide) hc
  have hne : Nat.toDigits 10 d.digits ≠ [] := Nat.toDigits_ne_nil
  have hzeros (n : Nat) : ∀ c ∈ List.replicate n '0', c.isDigit = true := fun c hc => by
    rw [List.eq_of_mem_replicate hc]
    rfl
  rw [positional]
  generalize Nat.toDigits 10 d.digits = digits at *
  dsimp only
  split
  · exact numeral_of_digits (by simp [hne])
      (List.forall_mem_append.mpr ⟨hdigits, hzeros _⟩)
  · split
    · refine numeral_point (numeral_of_digits ?_ fun c hc => hdigits c (List.mem_of_mem_take hc))
        fun c hc => hdigits c (List.mem_of_mem_drop hc)
      rw [← List.length_pos_iff, List.length_take]
      omega
    · exact numeral_point (numeral_of_digits (List.cons_ne_nil _ _) (hzeros 1))
        (List.forall_mem_append.mpr ⟨hzeros _, hdigits⟩)

end Decimal

/-! ## Doubles -/

open Binary64 (shape magnitudeBits isNegative infinityBits fraction)

variable {x y : Float} {m n : Nat} {e f : Int}

/-- What is known of a finite double that is not negative. -/
theorem Binary64.of_shape_finite (h : shape x = .finite false m e) :
    magnitudeBits x < infinityBits ∧ isNegative x = false ∧ m = (fraction (magnitudeBits x)).1 := by
  unfold shape at h
  dsimp only at h
  split at h
  · rw [Shape.finite.injEq] at h
    exact ⟨by assumption, h.1, h.2.1.symm⟩
  · split at h <;> contradiction

/-- A double that is not negative is known by its magnitude. -/
theorem Binary64.ofMagnitude_magnitudeBits (h : isNegative x = false) :
    ofMagnitude false (magnitudeBits x) = x := by
  have hlt : x.toBits.toNat < signBit := by
    rw [isNegative, decide_eq_false_iff_not] at h
    omega
  rw [ofMagnitude, magnitudeBits, Nat.mod_eq_of_lt hlt]
  show Float.ofBits (UInt64.ofNat x.toBits.toNat) = x
  rw [UInt64.ofNat_toNat, Float.ofBits_toBits]

/-- The text of a finite double that is not negative is that of a decimal that reads back. -/
theorem exists_decimal (h : shape x = .finite false m e) : ∃ d : Decimal,
    numberText x = String.ofList d.positional ∧ d.nearestBits = magnitudeBits x := by
  obtain ⟨hfinite, -, hm⟩ := Binary64.of_shape_finite h
  rw [numberText, h]
  by_cases hbits : magnitudeBits x = 0
  · have hzero : m = 0 := by
      rw [hm, hbits]
      rfl
    refine ⟨⟨0, 0⟩, ?_, by rw [hbits]; rfl⟩
    show (if m = 0 then _ else _) = _
    rw [if_pos hzero]
    rfl
  · have hpos := Binary64.fraction_pos hbits
    refine ⟨_, ?_, Decimal.nearestBits_shortest hbits (Nat.le_of_lt hfinite)⟩
    show (if m = 0 then _ else _) = _
    rw [if_neg (by omega)]
    exact String.empty_append

theorem numeral_numberText (h : shape x = .finite false m e) :
    Decimal.Numeral (numberText x).toList := by
  obtain ⟨d, htext, -⟩ := exists_decimal h
  rw [htext, String.toList_ofList]
  exact d.numeral_positional

/-- Different numbers have different texts. -/
theorem numberText_inj (hx : shape x = .finite false m e) (hy : shape y = .finite false n f)
    (h : numberText x = numberText y) : x = y := by
  obtain ⟨d, htext, hd⟩ := exists_decimal hx
  obtain ⟨d', htext', hd'⟩ := exists_decimal hy
  have hvalue : d.value = d'.value := by
    rw [htext, htext', String.ofList_inj] at h
    rw [← Decimal.textValue_positional, h, Decimal.textValue_positional]
  have hbits : magnitudeBits x = magnitudeBits y := by
    rw [← hd, Decimal.nearestBits_congr hvalue, hd']
  rw [← Binary64.ofMagnitude_magnitudeBits (Binary64.of_shape_finite hx).2.1, hbits,
    Binary64.ofMagnitude_magnitudeBits (Binary64.of_shape_finite hy).2.1]

theorem Binary64.toBits_ofMagnitude {bits : Nat} (h : bits ≤ infinityBits) :
    (ofMagnitude false bits).toBits.toNat = bits := by
  have hbits : infinityBits = 0x7FF0000000000000 := rfl
  have htoNat : (UInt64.ofNat bits).toNat = bits := by
    rw [UInt64.toNat_ofNat']
    omega
  have hnumber : ¬ IsNaN (UInt64.ofNat bits) := by
    rw [IsNaN, htoNat]
    exact Nat.not_lt.mpr (Nat.le_trans (Nat.mod_le _ _) h)
  show (Float.ofBits (UInt64.ofNat bits)).toBits.toNat = bits
  rw [toBits_ofBits_of_not_isNaN hnumber, htoNat]

theorem Binary64.nearestBits_le (num den : Nat) : nearestBits num den ≤ infinityBits := by
  rw [nearestBits]
  split
  · exact Nat.zero_le _
  · exact Nat.min_le_right _ _

/-- What a quotient is rounded to has the bits that were found. -/
theorem Binary64.shape_nearest (num den : Nat) : shape (nearest false num den) =
    if nearestBits num den < infinityBits then
      .finite false (fraction (nearestBits num den)).1 (fraction (nearestBits num den)).2
    else .infinite false := by
  have hle := nearestBits_le num den
  have hlt : nearestBits num den < signBit := Nat.lt_of_le_of_lt hle (by decide)
  have hbits := toBits_ofMagnitude hle
  have hmagnitude : magnitudeBits (nearest false num den) = nearestBits num den := by
    rw [magnitudeBits, nearest, hbits, Nat.mod_eq_of_lt hlt]
  have hsign : isNegative (nearest false num den) = false := by
    rw [isNegative, nearest, hbits, decide_eq_false_iff_not, Nat.not_le]
    exact hlt
  rw [shape, hmagnitude, hsign]
  dsimp only
  split
  · rfl
  · rw [if_pos (by omega)]

/-- A literal denotes a double that is not negative; too large a number is infinite. -/
theorem Decimal.shape_ofDigits (run : List Char) :
    shape (ofDigits run) = .infinite false ∨ ∃ m e, shape (ofDigits run) = .finite false m e := by
  rw [ofDigits, Binary64.shape_nearest]
  split
  · exact .inr ⟨_, _, rfl⟩
  · exact .inl rfl

end LambdaScript
