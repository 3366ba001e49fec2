import LambdaScript.Expr
import LambdaScript.Grammar.Cursor
/-!
# The grammar of expressions

An expression is an atom with the operators and operands that follow it. `Grammar.climb` folds an
operator onto what stands left of it if it binds tighter than a given bound: the right operand of a
binary operator takes in only operators that bind tighter still, so binary operators associate to
the left; assignment binds less than all of them and associates to the right. An atom takes in every
list of arguments that follows it.

The functions descend on their fuel, one unit for each step into a part or on to the next suffix.
`Grammar.Totality` shows how much is enough.
-/

namespace LambdaScript.Grammar

open LambdaScript.Parser

variable {σ : Type} [TokenSource σ]

/-! ## Operators -/

/-- What may stand between two operands. -/
inductive Connective where
  | assignment
  | binary (op : BinaryOp)
deriving DecidableEq

namespace Connective

/-- The connective with a spelling. -/
def ofSymbol? (symbol : String) : Option Connective :=
  if symbol = "=" then some assignment else (BinaryOp.ofSymbol? symbol).map binary

/-- How tightly a connective binds. -/
def precedence : Connective → Nat
  | assignment => 1
  | binary op => op.precedence

/-- Its right operand takes in what binds tighter than this. -/
def rightBound : Connective → Nat
  | assignment => 0
  | binary op => op.precedence

end Connective

/-- The connective that the next token spells, if it is an operator of the language. -/
def nextConnective : Parser σ (Option Connective) := do
  match ← peek with
  | some ⟨.operator name, _⟩ =>
    return Connective.ofSymbol? ((TokenSource.names (← Run.get)).spelling name)
  | _ => return none

/-- Two operands joined. Only a variable can be assigned to. -/
def combine (c : Connective) (left right : Tree) : Parser σ Tree :=
  let span := left.span.merge right.span
  match c, left with
  | .binary op, left => return .binary span op left right
  | .assignment, .var _ target => return .assign span target right
  | .assignment, left => failAt .invalidAssignmentTarget left.span

/-! ## Forms made of expressions -/

/-- An entry of a parameter list. -/
def parameter : Parser σ Name := do
  match ← peek with
  | some ⟨.identifier name, _⟩ =>
    let _ ← advance
    return name
  | some token => do failAt (.expectedParameterName (← describe token.kind)) token.span
  | none => do failAt (.expectedParameterName "end of input") (← endSpan)

/-- A block: an empty one is `false`, a single expression stands for itself. -/
def block (expression : Parser σ Tree) (fuel : Nat) : Parser σ Tree := do
  match ← delimited .curly expression fuel with
  | ([], span) => return .bool span false
  | ([item], _) => return item
  | (items, span) => return .seq span items

/-- The word `then`, which may be missing before a block. -/
def optionalThen : Parser σ Unit := do
  unless ← nextIsPunct .openBrace do
    let _ ← expectKeyword .thenWord

/-- A conditional: condition, branch, and a branch after `else` if there is that word. -/
def conditional (expression : Parser σ Tree) : Parser σ Tree := do
  let start ← expectKeyword .ifWord
  let condition ← expression
  optionalThen
  let thenBranch ← expression
  if ← nextIsKeyword .elseWord then
    let _ ← advance
    let elseBranch ← expression
    return .ifElse (start.merge elseBranch.span) condition thenBranch elseBranch
  else return .ifThen (start.merge thenBranch.span) condition thenBranch

/-- A loop: condition and body. -/
def loop (expression : Parser σ Tree) : Parser σ Tree := do
  let start ← expectKeyword .whileWord
  let condition ← expression
  optionalThen
  let body ← expression
  return .loop (start.merge body.span) condition body

/-- A function: parameters in brackets and a body. -/
def lambda (expression : Parser σ Tree) (fuel : Nat) : Parser σ Tree := do
  let start ← expectKeyword .lambdaWord
  let (params, _) ← delimited .round parameter fuel
  let body ← expression
  return .lambda (start.merge body.span) () params body

/-- An expression in brackets, which keeps the span it has inside them. -/
def bracketed (expression : Parser σ Tree) : Parser σ Tree := do
  let _ ← expectPunct .openParen
  let inner ← expression
  let _ ← expectPunct .closeParen
  return inner

/-- Take the next token and return the leaf made of it. -/
def leaf (tree : Tree) : Parser σ Tree := do
  let _ ← advance
  return tree

/-- An atom without the arguments that may follow it: the next token decides its form. -/
def primary (expression : Parser σ Tree) (fuel : Nat) : Parser σ Tree := do
  match ← peek with
  | none => failExpected "expression" none
  | some ⟨kind, span⟩ =>
    match kind with
    | .punct .openParen => bracketed expression
    | .punct .openBrace => block expression fuel
    | .keyword .ifWord => conditional expression
    | .keyword .whileWord => loop expression
    | .keyword .lambdaWord => lambda expression fuel
    | .keyword .trueWord => leaf (.bool span true)
    | .keyword .falseWord => leaf (.bool span false)
    | .identifier name => leaf (.var span name)
    | .number value => leaf (.number span value)
    | .string contents => leaf (.string span contents)
    | other => do failAt (.unexpectedToken (← describe other)) span

/-! ## Expressions -/

mutual

/-- An expression: an atom, the operators that follow it, and arguments. -/
def expression : Nat → Parser σ Tree
  | 0 => Run.outOfFuel
  | fuel + 1 => do
    let first ← atom fuel
    let whole ← climb fuel first 0
    suffixes fuel whole

/-- An atom with every list of arguments that follows it. -/
def atom : Nat → Parser σ Tree
  | 0 => Run.outOfFuel
  | fuel + 1 => do
    let callee ← primary (expression fuel) fuel
    suffixes fuel callee

/-- Fold onto `left` the operators that follow and bind tighter than `bound`. -/
def climb : Nat → Tree → Nat → Parser σ Tree
  | 0, _, _ => Run.outOfFuel
  | fuel + 1, left, bound => do
    match ← nextConnective with
    | none => return left
    | some c =>
      if c.precedence ≤ bound then return left
      else
        let _ ← advance
        let first ← atom fuel
        let right ← climb fuel first c.rightBound
        let whole ← combine c left right
        climb fuel whole bound

/-- Call `callee` with every list of arguments that follows. -/
def suffixes : Nat → Tree → Parser σ Tree
  | 0, _ => Run.outOfFuel
  | fuel + 1, callee => do
    if ← nextIsPunct .openParen then
      let (args, span) ← delimited .round (expression fuel) fuel
      suffixes fuel (.call (callee.span.merge span) callee args)
    else return callee

end

/-! ## Programs -/

/-- Expressions up to the end of the source with a semicolon behind each; the last one needs none.
Those found before are given in reverse. -/
def programItems : Nat → List Tree → Parser σ (List Tree)
  | 0, _ => Run.outOfFuel
  | fuel + 1, before => do
    if ← atEnd then return before.reverse
    let item ← expression fuel
    unless ← atEnd do
      let _ ← expectPunct .semicolon
    programItems fuel (item :: before)

/-- The span from the first expression to the last; of no expression, the start of the source. -/
def programSpan (items : List Tree) : Span :=
  match items.head?, items.getLast? with
  | some first, some last => first.span.merge last.span
  | _, _ => .point 0

/-- A program as one sequence. -/
def program (fuel : Nat) : Parser σ Tree := do
  let items ← programItems fuel []
  return .seq (programSpan items) items

end LambdaScript.Grammar
