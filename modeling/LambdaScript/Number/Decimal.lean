import LambdaScript.Number.Binary64
/-!
# Numbers in decimal

Reading: `Decimal.ofDigits` is the double nearest to a run of digits.

Writing: `numberText` is the shortest decimal that reads back as the same double, always positional.
`Decimal.shortest` looks on the grids of 1, 2, … 17 digits at the two neighbours of the exact value.
The first grid with a neighbour that reads back wins; of two such neighbours the nearer one is
taken, and the larger one if they are equally near. The exact expansion stands behind the search.
-/

namespace LambdaScript

/-- The value `digits * 10 ^ exponent`. -/
structure Decimal where
  digits : Nat
  exponent : Int
deriving DecidableEq

namespace Decimal

/-! ## Reading -/

/-- The number that a run of decimal digits spells. -/
def valueOfDigits (run : List Char) : Nat :=
  run.foldl (fun n c => 10 * n + (c.toNat - '0'.toNat)) 0

/-- The double that a run of decimal digits denotes; too large a number is infinite. -/
def ofDigits (run : List Char) : Float := Binary64.nearest false (valueOfDigits run) 1

/-- The bits of the double nearest to a decimal. -/
def nearestBits (d : Decimal) : Nat :=
  let (num, den) := Binary64.rescale 10 d.digits 1 (-d.exponent)
  Binary64.nearestBits num den

/-! ## Choosing the digits -/

/-- How many decimal digits `n` has, none for 0. -/
def digitCount (n : Nat) : Nat := if n = 0 then 0 else (Nat.toDigits 10 n).length

/-- The exponent `k` with `10 ^ k ≤ num / den < 10 ^ (k + 1)`, for a positive quotient. -/
def log10Quotient (num den : Nat) : Int :=
  if den ≤ num then digitCount (num / den) - 1
  else -digitCount ((den + num - 1) / num - 1)

/-- Of the two neighbours of `num / den` among the multiples of `10 ^ exponent`, the nearer one that
reads back as the double with the given bits; the larger one if both are equally near. -/
def onGrid? (num den bits : Nat) (exponent : Int) : Option Decimal :=
  let (n, d) := Binary64.rescale 10 num den exponent
  let below : Decimal := ⟨n / d, exponent⟩
  let above : Decimal := ⟨n / d + 1, exponent⟩
  let rest := n % d
  if below.nearestBits = bits ∧ (2 * rest < d ∨ above.nearestBits ≠ bits) then some below
  else if above.nearestBits = bits then some above
  else none

/-- The same value without trailing zeros among its digits. -/
def trim (digits : Nat) (exponent : Int) : Decimal :=
  if digits ≠ 0 ∧ digits % 10 = 0 then trim (digits / 10) (exponent + 1)
  else ⟨digits, exponent⟩
termination_by digits
decreasing_by omega

/-- The value `mantissa * 2 ^ exponent`, written out in full. -/
def expansion (mantissa : Nat) (exponent : Int) : Decimal :=
  if 0 ≤ exponent then ⟨mantissa * Nat.pow 2 exponent.toNat, 0⟩
  else ⟨mantissa * Nat.pow 5 (-exponent).toNat, exponent⟩

/-- The shortest decimal that reads back as the positive double with the given bits. -/
def shortest (bits : Nat) : Decimal :=
  let (mantissa, exponent) := Binary64.fraction bits
  let (num, den) := Binary64.rescale 2 mantissa 1 (-exponent)
  let top := log10Quotient num den
  let found := (List.range 17).findSome? fun (k : Nat) => onGrid? num den bits (top - k)
  let chosen := found.getD (expansion mantissa exponent)
  trim chosen.digits chosen.exponent

/-! ## Writing -/

/-- A decimal with all its places written: zeros up to the point, and a leading `0.` if needed. -/
def positional (d : Decimal) : List Char :=
  let digits := Nat.toDigits 10 d.digits
  if 0 ≤ d.exponent then digits ++ List.replicate d.exponent.toNat '0'
  else
    let places := (-d.exponent).toNat
    if places < digits.length then
      digits.take (digits.length - places) ++ '.' :: digits.drop (digits.length - places)
    else '0' :: '.' :: (List.replicate (places - digits.length) '0' ++ digits)

end Decimal

/-- The text of a double. -/
def numberText (x : Float) : String :=
  match Binary64.shape x with
  | .nan => "NaN"
  | .infinite negative => if negative then "-inf" else "inf"
  | .finite negative mantissa _ =>
    let sign := if negative then "-" else ""
    if mantissa = 0 then sign ++ "0"
    else sign ++ String.ofList (Decimal.shortest (Binary64.magnitudeBits x)).positional

end LambdaScript
