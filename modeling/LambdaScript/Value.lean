import LambdaScript.Expr
import LambdaScript.Number.Decimal
/-!
# Values

A value is a number, a string, a boolean or a function; a function is one of the built-ins or a
closure. A closure is known by the lambda node it came from and the scope it was made in: two
closures are equal exactly if both agree, and no function equals anything else.
-/

namespace LambdaScript

/-- A scope of a store, by its number. -/
abbrev ScopeId := Nat

/-- The functions that every program finds. -/
inductive Builtin where
  /-- Print a value on a line of its own. -/
  | print
  /-- The number of characters of a string. -/
  | length
  /-- Write a value into a file. -/
  | write
deriving DecidableEq, BEq, ReflBEq, LawfulBEq

namespace Builtin

/-- Every built-in, in the order in which they are bound. -/
def all : List Builtin := [print, length, write]

/-- The global name of a built-in. -/
def name : Builtin → String
  | print => "print"
  | length => "length"
  | write => "write"

end Builtin

/-- A lambda node together with the scope it was evaluated in. -/
structure Closure where
  label : Nat
  params : List Name
  body : Code
  scope : ScopeId

namespace Closure

/-- Made by the same lambda node in the same scope. -/
def same (c d : Closure) : Bool := c.label == d.label && c.scope == d.scope

end Closure

/-- Something that can be called. -/
inductive Callable where
  | closure (c : Closure)
  | builtin (b : Builtin)

namespace Callable

/-- The same closure or the same built-in. -/
def same : Callable → Callable → Bool
  | closure c, closure d => c.same d
  | builtin b, builtin c => b == c
  | _, _ => false

/-- The parameters by number, or which built-in: a form that shows no body. -/
def summary : Callable → String
  | closure c =>
    "Closure \x7b params: [" ++ ", ".intercalate (c.params.map toString) ++ "], .. \x7d"
  | builtin .print => "Builtin(Print)"
  | builtin .length => "Builtin(Length)"
  | builtin .write => "Builtin(Write)"

end Callable

/-- What an expression evaluates to. -/
inductive Value where
  | number (x : Float)
  | string (s : String)
  | bool (b : Bool)
  | function (f : Callable)

/-- The four kinds of values. -/
inductive Kind where
  | number | string | boolean | function
deriving DecidableEq

namespace Kind

/-- The name of a kind. -/
def name : Kind → String
  | number => "number"
  | string => "string"
  | boolean => "boolean"
  | function => "function"

instance : ToString Kind := ⟨name⟩

end Kind

namespace Value

instance : Inhabited Value := ⟨.bool false⟩

/-- The kind of a value. -/
def kind : Value → Kind
  | number _ => .number
  | string _ => .string
  | bool _ => .boolean
  | function _ => .function

/-- Only `false` counts as false. -/
def isFalse : Value → Bool
  | bool false => true
  | _ => false

/-- Equality without conversion: values of different kinds differ, numbers compare as numbers, so
that a NaN differs from itself. -/
def same : Value → Value → Bool
  | number x, number y => x == y
  | string s, string t => s == t
  | bool a, bool b => a == b
  | function f, function g => f.same g
  | _, _ => false

/-- The text of a value, as it is printed and written. -/
def display (names : Interner) : Value → String
  | number x => numberText x
  | string s => s
  | bool b => if b then "true" else "false"
  | function (.closure c) => "<lambda(" ++ ", ".intercalate (c.params.map names.spelling) ++ ")>"
  | function (.builtin b) => "<builtin " ++ b.name ++ ">"

end Value

end LambdaScript
