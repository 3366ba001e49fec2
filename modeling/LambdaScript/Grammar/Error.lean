import LambdaScript.Token.Lexer
/-!
# Syntax errors

Reading a program stops at the first token that does not fit, or at the first place where the source
cannot be cut into tokens. `ParseFault` lists the ways in which a token does not fit; `SyntaxError`
is either kind of error.
-/

namespace LambdaScript

/-- How a source breaks the grammar. Tokens are given as error messages name them. -/
inductive ParseFault where
  /-- No expression begins with this token. -/
  | unexpectedToken (found : String)
  /-- A particular token was needed here. -/
  | mismatch (expected found : String)
  /-- The source ends where more was needed. -/
  | unexpectedEnd (expected : String)
  /-- What stands left of `=` is no variable. -/
  | invalidAssignmentTarget
  /-- An entry of a parameter list is no identifier. -/
  | expectedParameterName (found : String)
deriving DecidableEq

namespace ParseFault

/-- The text of a fault. -/
def message : ParseFault → String
  | unexpectedToken found => "unexpected " ++ found
  | mismatch expected found => "expected " ++ expected ++ ", found " ++ found
  | unexpectedEnd expected => "expected " ++ expected ++ ", found end of input"
  | invalidAssignmentTarget => "invalid assignment target"
  | expectedParameterName found => "expected parameter name, found " ++ found

end ParseFault

/-- A fault and the range of the source it concerns. -/
structure ParseError where
  fault : ParseFault
  span : Span
deriving DecidableEq

/-- Why a source is no program. -/
inductive SyntaxError where
  /-- The source cannot be cut into tokens. -/
  | lexical (error : LexError)
  /-- The tokens do not fit the grammar. -/
  | grammatical (error : ParseError)
deriving DecidableEq

/-- The text of a syntax error; a lexical one tells its line and column. -/
def SyntaxError.message : SyntaxError → String
  | lexical error => error.message
  | grammatical error => error.fault.message

end LambdaScript
