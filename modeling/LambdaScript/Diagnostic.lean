import LambdaScript.Source.Span
/-!
# Diagnostics

A diagnostic reports one error: its code, a message, labels that point into the source, and notes.
The codes are fixed: four digits behind an `E`, the first of which tells the phase that failed.
-/

namespace LambdaScript

/-- The kinds of errors that are reported. -/
inductive ErrorCode where
  | unterminatedString | invalidCharacter
  | unexpectedToken | unexpectedEnd | missingToken | invalidAssignmentTarget | missingParameterName
  | undefinedVariable | notANumber | invalidDenominator | typeMismatch | notCallable
  | wrongArgument | stackOverflow
deriving DecidableEq

namespace ErrorCode

/-- Every code, in order. -/
def all : List ErrorCode :=
  [unterminatedString, invalidCharacter, unexpectedToken, unexpectedEnd, missingToken,
    invalidAssignmentTarget, missingParameterName, undefinedVariable, notANumber,
    invalidDenominator, typeMismatch, notCallable, wrongArgument, stackOverflow]

/-- The code as it is shown. -/
def text : ErrorCode → String
  | unterminatedString => "E0001"
  | invalidCharacter => "E0002"
  | unexpectedToken => "E1001"
  | unexpectedEnd => "E1002"
  | missingToken => "E1003"
  | invalidAssignmentTarget => "E1004"
  | missingParameterName => "E1005"
  | undefinedVariable => "E6001"
  | notANumber => "E6002"
  | invalidDenominator => "E6003"
  | typeMismatch => "E6004"
  | notCallable => "E6005"
  | wrongArgument => "E6006"
  | stackOverflow => "E6007"

/-- The code that is shown as `s`. -/
def ofText? (s : String) : Option ErrorCode := all.find? (·.text == s)

/-- The phase that reports a code. -/
def phase : ErrorCode → String
  | unterminatedString | invalidCharacter => "lexer"
  | unexpectedToken | unexpectedEnd | missingToken | invalidAssignmentTarget
  | missingParameterName => "parser"
  | _ => "runtime"

/-- What a code stands for. -/
def description : ErrorCode → String
  | unterminatedString => "unterminated string literal"
  | invalidCharacter => "invalid character in source"
  | unexpectedToken => "unexpected token"
  | unexpectedEnd => "unexpected end of input"
  | missingToken => "expected a specific token"
  | invalidAssignmentTarget => "invalid assignment target"
  | missingParameterName => "expected parameter name"
  | undefinedVariable => "undefined variable"
  | notANumber => "arithmetic on a non-number"
  | invalidDenominator => "invalid denominator"
  | typeMismatch => "mismatched operand kinds"
  | notCallable => "value is not callable"
  | wrongArgument => "wrong argument type"
  | stackOverflow => "call depth limit exceeded"

/-- One line on a code. -/
def explain (code : ErrorCode) : String :=
  code.text ++ " (" ++ code.phase ++ "): " ++ code.description

end ErrorCode

/-- A message about a range of the source. -/
structure Label where
  span : Span
  message : String
deriving DecidableEq

/-- The report of one error. -/
structure Diagnostic where
  code : ErrorCode
  message : String
  labels : List Label
  notes : List String
deriving DecidableEq

namespace Diagnostic

/-- The range that the first label is about; its start is where the error is said to be. -/
def primarySpan? (d : Diagnostic) : Option Span := d.labels.head?.map (·.span)

/-- Code and message on one line. -/
def headline (d : Diagnostic) : String := "error[" ++ d.code.text ++ "]: " ++ d.message

end Diagnostic

end LambdaScript
