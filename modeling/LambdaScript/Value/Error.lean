import LambdaScript.Value
/-!
# Runtime errors

An error tells what went wrong, in terms of kinds of values and spellings, and the span of the
expression that raised it. The span is attached on the way out: `RuntimeError.located` keeps the one
that is already there, so it is the innermost that stays.
-/

namespace LambdaScript

/-- What can go wrong when a program runs. -/
inductive RuntimeFault where
  /-- No scope binds the name. -/
  | undefinedVariable (name : String)
  /-- Arithmetic on something that is no number. -/
  | notANumber (op : BinaryOp) (found : Kind)
  /-- A divisor that is zero, given as a number, or of another kind, given as that kind. -/
  | invalidDenominator (op : BinaryOp) (found : String)
  /-- Operands that do not go together. -/
  | typeMismatch (op : BinaryOp) (left right : Kind)
  /-- A call of something that is no function. -/
  | notCallable (found : Kind)
  /-- An argument of the wrong kind, or none. -/
  | wrongArgument (function expected : String) (found : Option Kind)
  /-- Too many calls inside one another. -/
  | stackOverflow (limit : Nat)
deriving DecidableEq

namespace RuntimeFault

/-- The text of a fault. -/
def message : RuntimeFault → String
  | undefinedVariable name => "undefined variable `" ++ name ++ "`"
  | notANumber op found => "`" ++ op.symbol ++ "` expects numbers, found " ++ found.name
  | invalidDenominator op found => "invalid denominator for `" ++ op.symbol ++ "`: " ++ found
  | typeMismatch op left right =>
    "cannot apply `" ++ op.symbol ++ "` to " ++ left.name ++ " and " ++ right.name
  | notCallable found => found.name ++ " is not callable"
  | wrongArgument function expected found =>
    "`" ++ function ++ "` expects " ++ expected ++ ", found " ++
      match found with
      | some kind => kind.name
      | none => "nothing"
  | stackOverflow limit => "maximum call depth of " ++ toString limit ++ " exceeded"

/-- The fault of a divisor: a number is told as such, anything else by its kind. -/
def badDenominator (op : BinaryOp) : Value → RuntimeFault
  | .number x => invalidDenominator op (numberText x)
  | other => invalidDenominator op other.kind.name

end RuntimeFault

/-- A fault and the span of the expression that raised it, once known. -/
structure RuntimeError where
  fault : RuntimeFault
  span : Option Span
deriving DecidableEq

namespace RuntimeError

/-- A fault that no expression has taken the blame for yet. -/
def ofFault (fault : RuntimeFault) : RuntimeError := ⟨fault, none⟩

/-- Attach a span unless there is one. -/
def located (span : Span) (e : RuntimeError) : RuntimeError :=
  { e with span := some (e.span.getD span) }

/-- The text of an error. -/
def message (e : RuntimeError) : String := e.fault.message

end RuntimeError

end LambdaScript
