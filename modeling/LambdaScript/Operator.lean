/-!
# Binary operators

The table of operators: spelling, how tightly each binds, and which of them look at their right
operand only if they have to. Assignment is no operator of this table; it binds less than all.
-/

namespace LambdaScript

/-- An operator between two operands. -/
inductive BinaryOp where
  | add | sub | mul | div | mod
  | eq | ne | lt | le | gt | ge
  | and | or
deriving DecidableEq, BEq, ReflBEq, LawfulBEq, Inhabited

namespace BinaryOp

/-- Every operator. -/
def all : List BinaryOp := [add, sub, mul, div, mod, eq, ne, lt, le, gt, ge, and, or]

/-- The spelling of an operator. -/
def symbol : BinaryOp → String
  | add => "+" | sub => "-" | mul => "*" | div => "/" | mod => "%"
  | eq => "==" | ne => "!=" | lt => "<" | le => "<=" | gt => ">" | ge => ">="
  | and => "&&" | or => "||"

/-- The operator with a spelling. -/
def ofSymbol? : String → Option BinaryOp
  | "+" => some add | "-" => some sub | "*" => some mul | "/" => some div | "%" => some mod
  | "==" => some eq | "!=" => some ne
  | "<" => some lt | "<=" => some le | ">" => some gt | ">=" => some ge
  | "&&" => some and | "||" => some or
  | _ => none

/-- How tightly an operator binds: products, sums, comparisons, `&&`, `||`. -/
def precedence : BinaryOp → Nat
  | mul | div | mod => 20
  | add | sub => 10
  | lt | le | gt | ge | eq | ne => 7
  | and => 3
  | or => 2

/-- The five levels, from the tightest to the loosest. -/
example : [20, 10, 7, 3, 2].map (fun level => (all.filter (·.precedence == level)).map symbol) =
    [["*", "/", "%"], ["+", "-"], ["==", "!=", "<", "<=", ">", ">="], ["&&"], ["||"]] := by
  decide

/-- The right operand is evaluated only if the left one does not decide. -/
def isShortCircuit : BinaryOp → Bool
  | and | or => true
  | _ => false

instance : ToString BinaryOp := ⟨symbol⟩

theorem ofSymbol?_symbol (op : BinaryOp) : ofSymbol? op.symbol = some op := by
  cases op <;> rfl

end BinaryOp

end LambdaScript
