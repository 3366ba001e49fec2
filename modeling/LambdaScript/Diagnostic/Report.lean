import LambdaScript.Diagnostic
import LambdaScript.Interpreter
/-!
# Errors as diagnostics

Each kind of error becomes a diagnostic with its own code. Lexical and syntax errors have one label;
a runtime error has one if the expression that raised it is known.
-/

namespace LambdaScript

namespace LexError

/-- The code of a lexical error. -/
def code (e : LexError) : ErrorCode :=
  match e.fault with
  | .unterminatedString => .unterminatedString
  | .invalidCharacter _ => .invalidCharacter

/-- The report of a lexical error, which points at the place where it was met. -/
def diagnostic (e : LexError) : Diagnostic :=
  let remark := match e.fault with
    | .unterminatedString => "missing closing `\"`"
    | .invalidCharacter _ => "not valid here"
  { code := e.code
    message := e.fault.message
    labels := [⟨.point e.offset, remark⟩]
    notes := [] }

end LexError

namespace ParseError

/-- The code of an error against the grammar. -/
def code (e : ParseError) : ErrorCode :=
  match e.fault with
  | .unexpectedToken _ => .unexpectedToken
  | .unexpectedEnd _ => .unexpectedEnd
  | .mismatch _ _ => .missingToken
  | .invalidAssignmentTarget => .invalidAssignmentTarget
  | .expectedParameterName _ => .missingParameterName

/-- The remark that stands at the range of an error. -/
def remark (e : ParseError) : String :=
  match e.fault with
  | .unexpectedToken _ => "cannot start an expression"
  | .unexpectedEnd _ => "input ends here"
  | .mismatch expected _ => "expected " ++ expected
  | .invalidAssignmentTarget => "cannot assign to this"
  | .expectedParameterName _ => "expected an identifier"

/-- Further advice on an error. -/
def advice (e : ParseError) : List String :=
  match e.fault with
  | .unexpectedEnd expected => ["expected " ++ expected ++ " before the end of the file"]
  | .invalidAssignmentTarget => ["only variables can appear on the left of `=`"]
  | _ => []

/-- The report of an error against the grammar. -/
def diagnostic (e : ParseError) : Diagnostic :=
  { code := e.code
    message := e.fault.message
    labels := [⟨e.span, e.remark⟩]
    notes := e.advice }

end ParseError

namespace SyntaxError

/-- The code of a syntax error. -/
def code : SyntaxError → ErrorCode
  | lexical e => e.code
  | grammatical e => e.code

/-- The report of a syntax error. -/
def diagnostic : SyntaxError → Diagnostic
  | lexical e => e.diagnostic
  | grammatical e => e.diagnostic

end SyntaxError

namespace RuntimeError

/-- The code of a runtime error. -/
def code (e : RuntimeError) : ErrorCode :=
  match e.fault with
  | .undefinedVariable _ => .undefinedVariable
  | .notANumber _ _ => .notANumber
  | .invalidDenominator _ _ => .invalidDenominator
  | .typeMismatch _ _ _ => .typeMismatch
  | .notCallable _ => .notCallable
  | .wrongArgument _ _ _ => .wrongArgument
  | .stackOverflow _ => .stackOverflow

/-- The remark that stands at the expression that raised an error. -/
def remark (e : RuntimeError) : String :=
  match e.fault with
  | .undefinedVariable _ => "not defined"
  | .notANumber _ _ | .typeMismatch _ _ _ => "in this operation"
  | .invalidDenominator _ _ => "in this division"
  | .notCallable _ | .wrongArgument _ _ _ => "in this call"
  | .stackOverflow _ => "while making this call"

/-- Further advice on an error. -/
def advice (e : RuntimeError) : List String :=
  match e.fault with
  | .undefinedVariable _ =>
    ["assignment only defines new variables at the top level; inside a function, " ++
      "assign to a parameter or to a variable defined outside it"]
  | .stackOverflow _ => ["use `--max-depth=N` to raise the limit"]
  | _ => []

/-- The report of a runtime error. -/
def diagnostic (e : RuntimeError) : Diagnostic :=
  { code := e.code
    message := e.message
    labels := (e.span.map fun span => ⟨span, e.remark⟩).toList
    notes := e.advice }

end RuntimeError

namespace RunError

/-- The code of an error that ended a run. -/
def code : RunError → ErrorCode
  | syntactic e => e.code
  | runtime e => e.code

/-- The report of an error that ended a run. -/
def diagnostic : RunError → Diagnostic
  | syntactic e => e.diagnostic
  | runtime e => e.diagnostic

end RunError

end LambdaScript
