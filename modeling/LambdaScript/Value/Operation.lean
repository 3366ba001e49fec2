import LambdaScript.Number.Binary64
import LambdaScript.Value.Error
/-!
# Binary operators on values

`Value.binary` applies an operator to two values. Numbers are doubles with their arithmetic; strings
can be joined and ordered; nothing is converted. `&&` and `||` give one of their operands.
-/

namespace LambdaScript.Value

/-- Both operands as numbers; the first that is none is to blame. -/
def numbers (op : BinaryOp) : Value → Value → Except RuntimeFault (Float × Float)
  | number x, number y => .ok (x, y)
  | number _, other => .error (.notANumber op other.kind)
  | other, _ => .error (.notANumber op other.kind)

/-- A number and a divisor, which must be a number other than zero. -/
def dividends (op : BinaryOp) : Value → Value → Except RuntimeFault (Float × Float)
  | number x, number y =>
    if y == 0 then .error (.badDenominator op (number y)) else .ok (x, y)
  | number _, other => .error (.badDenominator op other)
  | other, _ => .error (.notANumber op other.kind)

/-- Numbers are added, strings joined. -/
def add : Value → Value → Except RuntimeFault Value
  | number x, number y => .ok (number (x + y))
  | string s, string t => .ok (string (s ++ t))
  | a, b => .error (.typeMismatch .add a.kind b.kind)

/-- How two numbers compare; a NaN compares with nothing. -/
def compareNumbers (x y : Float) : Option Ordering :=
  if x < y then some .lt else if x == y then some .eq else if y < x then some .gt else none

/-- How two values compare: numbers by size, strings by their characters from the left. -/
def compare? : Value → Value → Option (Option Ordering)
  | number x, number y => some (compareNumbers x y)
  | string s, string t => some (some (compare s t))
  | _, _ => none

/-- Whether an operator holds of operands that compare in a given way. -/
def orderHolds : BinaryOp → Ordering → Bool
  | .lt, o => o == .lt
  | .le, o => o != .gt
  | .gt, o => o == .gt
  | _, o => o != .lt

/-- The operators `<`, `<=`, `>` and `>=`; nothing holds of a NaN. -/
def order (op : BinaryOp) (a b : Value) : Except RuntimeFault Value :=
  match compare? a b with
  | some ordering => .ok (bool (ordering.any (orderHolds op)))
  | none => .error (.typeMismatch op a.kind b.kind)

/-- An operator applied to two values. -/
def binary (op : BinaryOp) (a b : Value) : Except RuntimeFault Value :=
  match op with
  | .add => add a b
  | .sub => do
    let (x, y) ← numbers op a b
    return number (x - y)
  | .mul => do
    let (x, y) ← numbers op a b
    return number (x * y)
  | .div => do
    let (x, y) ← dividends op a b
    return number (x / y)
  | .mod => do
    let (x, y) ← dividends op a b
    return number (Binary64.remainder x y)
  | .lt | .le | .gt | .ge => order op a b
  | .eq => .ok (bool (a.same b))
  | .ne => .ok (bool (!a.same b))
  | .and => .ok (if a.isFalse then a else b)
  | .or => .ok (if a.isFalse then b else a)

end LambdaScript.Value
