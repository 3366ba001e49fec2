import LambdaScript.Grammar.Error
import LambdaScript.Outcome
import LambdaScript.Token.Stream
/-!
# Looking at and taking tokens

A `Parser` reads tokens from a source and yields a value or a syntax error; the source it leaves
behind is known in either case. This file has the steps that the grammar is made of: looking at the
next token, taking it, and taking it only if it is the one needed.
-/

namespace LambdaScript

/-- A computation that reads tokens from a source of type `σ`. -/
abbrev Parser (σ α : Type) : Type := Run SyntaxError σ α

namespace Parser

variable {σ α : Type} [TokenSource σ]

/-- A step of the token source; its failures are lexical errors. -/
def ofSource (step : σ → Except LexError α × σ) : Parser σ α :=
  Run.mapError .lexical (Run.ofStep step)

/-- The next token, left in the source. -/
def peek : Parser σ (Option Token) := ofSource TokenSource.peek

/-- Take the next token. -/
def advance : Parser σ (Option Token) := ofSource TokenSource.next

/-- No token is left. -/
def atEnd : Parser σ Bool := do return (← peek).isNone

/-- The next token is this punctuation. -/
def nextIsPunct (p : Punct) : Parser σ Bool := do return (← peek).any (·.isPunct p)

/-- The next token is this reserved word. -/
def nextIsKeyword (k : Keyword) : Parser σ Bool := do return (← peek).any (·.isKeyword k)

/-- Stop with a fault at a span. -/
def failAt (fault : ParseFault) (span : Span) : Parser σ α :=
  Run.fail (.grammatical ⟨fault, span⟩)

/-- The empty span at the end of what was read. -/
def endSpan : Parser σ Span := do return Span.point (TokenSource.offset (← Run.get))

/-- The name of a token in error messages. -/
def describe (kind : TokenKind) : Parser σ String := do
  return kind.describe (TokenSource.names (← Run.get))

/-- Stop because `expected` was needed where the token `found`, or the end, was met. -/
def failExpected (expected : String) : Option Token → Parser σ α
  | some token => do failAt (.mismatch expected (← describe token.kind)) token.span
  | none => do failAt (.unexpectedEnd expected) (← endSpan)

/-- Take the next token if it passes the test, and return its span; else `expected` is missing. -/
def expect (test : Token → Bool) (expected : String) : Parser σ Span := do
  match ← peek with
  | some token =>
    if test token then
      let _ ← advance
      return token.span
    else failExpected expected (some token)
  | none => failExpected expected none

/-- Take this punctuation. -/
def expectPunct (p : Punct) : Parser σ Span := expect (·.isPunct p) ("`" ++ toString p ++ "`")

/-- Take this reserved word. -/
def expectKeyword (k : Keyword) : Parser σ Span :=
  expect (·.isKeyword k) ("keyword `" ++ k.spelling ++ "`")

/-! ## Lists in brackets -/

/-- The punctuation of a list: what opens it, what closes it, and what stands between its items. -/
structure Brackets where
  opening : Punct
  closing : Punct
  separator : Punct

/-- Lists of arguments and of parameters. -/
def Brackets.round : Brackets := ⟨.openParen, .closeParen, .comma⟩

/-- Blocks. -/
def Brackets.curly : Brackets := ⟨.openBrace, .closeBrace, .semicolon⟩

/-- The items that follow at least one item, up to but not including the closing bracket. A
separator stands before each; one more may stand before the bracket. Items found before are given in
reverse. -/
def moreItems (b : Brackets) (item : Parser σ α) : Nat → List α → Parser σ (List α)
  | 0, _ => Run.outOfFuel
  | fuel + 1, before => do
    if ← nextIsPunct b.closing then return before.reverse
    let _ ← expectPunct b.separator
    if ← nextIsPunct b.closing then return before.reverse
    let next ← item
    moreItems b item fuel (next :: before)

/-- The items of a list, up to but not including the closing bracket. -/
def items (b : Brackets) (item : Parser σ α) (fuel : Nat) : Parser σ (List α) := do
  if ← nextIsPunct b.closing then return []
  let first ← item
  moreItems b item fuel [first]

/-- A list in brackets: its items in order and the span from bracket to bracket. -/
def delimited (b : Brackets) (item : Parser σ α) (fuel : Nat) : Parser σ (List α × Span) := do
  let start ← expectPunct b.opening
  let found ← items b item fuel
  let stop ← expectPunct b.closing
  return (found, start.merge stop)

end Parser

end LambdaScript
