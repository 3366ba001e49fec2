/-!
# Doubles as exact fractions

A finite double is a sign and a value `mantissa * 2 ^ exponent`. This file has the two directions in
exact integer arithmetic:

* `Binary64.shape` reads the sign, mantissa and exponent off the bits;
* `Binary64.nearest` rounds an exact quotient of natural numbers to the nearest double, a tie going
  to the even mantissa and too large a quotient to infinity.

`Binary64.remainder` is the exact remainder of a division that truncates toward zero.
-/

namespace LambdaScript.Binary64

/-- What the bits of a double stand for. -/
inductive Shape where
  | nan
  | infinite (negative : Bool)
  /-- The value `mantissa * 2 ^ exponent`, negated if `negative`; a zero has its sign too. -/
  | finite (negative : Bool) (mantissa : Nat) (exponent : Int)

/-- The least mantissa of a normal number, `2 ^ 52`. -/
abbrev leastNormal : Nat := 0x10000000000000

/-- The bit that tells the sign, `2 ^ 63`. -/
abbrev signBit : Nat := 0x8000000000000000

/-- The exponent of the numbers below all normal ones. -/
abbrev leastExponent : Int := -1074

/-- The bits of positive infinity. -/
abbrev infinityBits : Nat := 2047 * leastNormal

/-- The bits of a double, its sign left out. -/
def magnitudeBits (x : Float) : Nat := x.toBits.toNat % signBit

/-- The sign of a double, set also for `-0`. -/
def isNegative (x : Float) : Bool := signBit ≤ x.toBits.toNat

/-- Mantissa and exponent of the finite number with these bits: the exponent field 0 keeps the least
exponent and hides no leading bit. -/
def fraction (bits : Nat) : Nat × Int :=
  let field := bits / leastNormal
  if field = 0 then (bits % leastNormal, leastExponent)
  else (bits % leastNormal + leastNormal, field - 1075)

/-- The sign, mantissa and exponent of a double. -/
def shape (x : Float) : Shape :=
  let bits := magnitudeBits x
  if bits < infinityBits then
    let (mantissa, exponent) := fraction bits
    .finite (isNegative x) mantissa exponent
  else if bits = infinityBits then .infinite (isNegative x)
  else .nan

/-- The double with the given sign and the bits of its magnitude. -/
def ofMagnitude (negative : Bool) (bits : Nat) : Float :=
  Float.ofBits (UInt64.ofNat (bits + if negative then signBit else 0))

/-! ## Rounding an exact quotient -/

/-- The quotient `num / den` divided by `base ^ exponent`, again as numerator and denominator. -/
def rescale (base num den : Nat) (exponent : Int) : Nat × Nat :=
  if 0 ≤ exponent then (num, den * Nat.pow base exponent.toNat)
  else (num * Nat.pow base (-exponent).toNat, den)

/-- The quotient rounded to an integer, halves to the even one. -/
def roundHalfEven (num den : Nat) : Nat :=
  let quotient := num / den
  let rest := 2 * (num % den)
  if rest < den then quotient
  else if den < rest then quotient + 1
  else quotient + quotient % 2

/-- The exponent `k` with `2 ^ k ≤ num / den < 2 ^ (k + 1)`, for a positive quotient. -/
def log2Quotient (num den : Nat) : Int :=
  let guess : Int := num.log2 - den.log2
  let (n, d) := rescale 2 num den guess
  if d ≤ n then guess else guess - 1

/-- The bits of the double nearest to `num / den`. Adding the mantissa to the exponent field carries
a mantissa rounded up to `2 ^ 53` into the next exponent. -/
def nearestBits (num den : Nat) : Nat :=
  if num = 0 then 0
  else
    let exponent := max leastExponent (log2Quotient num den - 52)
    let (n, d) := rescale 2 num den exponent
    min ((exponent - leastExponent).toNat * leastNormal + roundHalfEven n d) infinityBits

/-- The double nearest to `num / den`. -/
def nearest (negative : Bool) (num den : Nat) : Float := ofMagnitude negative (nearestBits num den)

/-! ## Remainder -/

/-- What is left of `x` after taking away `y` as often as its size allows, with the sign of `x`. No
rounding takes place. There is none for an infinite `x` or a zero `y`. -/
def remainder (x y : Float) : Float :=
  match shape x, shape y with
  | .finite negative m e, .finite _ n f =>
    if n = 0 then 0 / 0
    else
      let low := min e f
      let rest := (m * Nat.pow 2 (e - low).toNat) % (n * Nat.pow 2 (f - low).toNat)
      let (num, den) := rescale 2 rest 1 (-low)
      nearest negative num den
  | .finite .., .infinite _ => x
  | _, _ => 0 / 0

end LambdaScript.Binary64
