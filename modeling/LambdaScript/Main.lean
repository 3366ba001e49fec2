import LambdaScript.CommandLine
/-!
# The program

`main` reads the file that the command line names, asks `Command.report` what to do, and does it.
-/

namespace LambdaScript

/-- The number of a system error, which may be given as a negative word. -/
def errorNumber (code : UInt32) : Nat :=
  if code < 0x80000000 then code.toNat else (0 - code).toNat

/-- Why the system would not read a file. -/
def readFailure (e : IO.Error) : ReadFailure :=
  match e with
  | .noFileOrDirectory .. => .notFound
  | .permissionDenied .. => .notPermitted
  | .inappropriateType _ code _ | .invalidArgument _ code _ =>
    match errorNumber code with
    | 20 => .throughFile
    | 21 => .directory
    | 36 => .tooLong
    | _ => .other (toString e)
  | _ => .other (toString e)

/-- The text of a file. -/
def readText (path : String) : IO (Except ReadFailure String) := do
  try
    let contents ← IO.FS.readBinFile path
    match String.fromUTF8? contents with
    | some text => return .ok text
    | none => return .error .notText
  catch e => return .error (readFailure e)

/-- Write a file, if that can be done. -/
def writeText (w : FileWrite) : IO Unit := do
  try IO.FS.writeFile w.path w.contents
  catch _ => return ()

end LambdaScript

open LambdaScript in
/-- Run the command line, and end with the code of its report. -/
def main (args : List String) : IO UInt32 := do
  let command := Command.ofArgs args
  let text ← match command.path? with
    | some path => readText path
    | none => pure (.error .notFound)
  match command.report (← (← IO.getStderr).isTty) text with
  | none => return 1
  | some report =>
    report.writes.forM writeText
    IO.print report.stdout
    IO.eprint report.stderr
    return report.code.toUInt32
