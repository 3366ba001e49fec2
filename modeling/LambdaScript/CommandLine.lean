import LambdaScript.Diagnostic.Render
import LambdaScript.Diagnostic.Report
import LambdaScript.Directory
import LambdaScript.Expr.Dump
/-!
# The command line

`Command.ofArgs` reads the arguments. A command may need the text of one file; given that text, or
the reason why there is none, `Command.report` says what the command prints, which files it writes,
and with which code it ends. `Command.runIn` does so for a directory whose files are known. Nothing
here touches the world.

Errors are shown in colours only where `terminal` says that they go to one, unless the arguments
choose.
-/

namespace LambdaScript

/-! ## Arguments of `run` -/

/-- What a run can be told. -/
structure RunOptions where
  limit : Nat
  color : ColorMode
deriving DecidableEq

/-- The options of a run that is told nothing. -/
def RunOptions.default : RunOptions := ⟨defaultLimit, .auto⟩

/-- Why the arguments of a run are refused. -/
inductive RunArgsError where
  | invalidLimit (value : String)
  | invalidColor (value : String)
  | unknownOption (arg : String)
  /-- There is a path already. -/
  | unexpectedArgument (arg : String)
  | missingPath
deriving DecidableEq

/-- The text of an error in the arguments of a run. -/
def RunArgsError.message : RunArgsError → String
  | invalidLimit value => "invalid --max-depth value '" ++ value ++ "'"
  | invalidColor value => "invalid --color value '" ++ value ++ "'"
  | unknownOption arg => "unknown option '" ++ arg ++ "'"
  | unexpectedArgument arg => "unexpected argument '" ++ arg ++ "'"
  | missingPath => "missing file path"

namespace RunArgs

/-- The largest limit of nested calls; limits are 64 bits wide. -/
def maxLimit : Nat := 0xffffffffffffffff

/-- The number that a text denotes: digits, with a plus in front or not, and not above the largest
limit. -/
def parseLimit? (text : String) : Option Nat :=
  let digits := match text.toList with
    | '+' :: rest => rest
    | chars => chars
  if digits.isEmpty || !digits.all isDigit then none
  else
    let value := Decimal.valueOfDigits digits
    if value ≤ maxLimit then some value else none

/-- The rest of `arg` behind `start`, if it begins with that. -/
def after? (start arg : String) : Option String :=
  if start.toList.isPrefixOf arg.toList then some (String.ofList (arg.toList.drop start.length))
  else none

/-- Take in one argument, given the path and the options found so far. -/
def step (path : Option String) (options : RunOptions) (arg : String) :
    Except RunArgsError (Option String × RunOptions) :=
  match after? "--max-depth=" arg with
  | some value =>
    match parseLimit? value with
    | some limit => .ok (path, { options with limit })
    | none => .error (.invalidLimit value)
  | none =>
    match after? "--color=" arg with
    | some value =>
      match ColorMode.ofWord? value with
      | some color => .ok (path, { options with color })
      | none => .error (.invalidColor value)
    | none =>
      if arg.toList.head? == some '-' then .error (.unknownOption arg)
      else if path.isSome then .error (.unexpectedArgument arg)
      else .ok (some arg, options)

/-- The path and the options among arguments; the first argument that does not fit is refused. -/
def parse (args : List String) : Except RunArgsError (String × RunOptions) := do
  let (path, options) ← args.foldlM (fun (path, options) arg => step path options arg)
    (none, RunOptions.default)
  match path with
  | some path => .ok (path, options)
  | none => .error .missingPath

end RunArgs

/-! ## Commands -/

/-- What the program is asked to do. -/
inductive Command where
  | help
  | version
  | run (path : String) (options : RunOptions)
  /-- Show the tokens of a file. -/
  | lex (path : String)
  /-- Show the program in a file on one line. -/
  | parse (path : String)
  | explain (code : String)
  /-- The arguments of `run` are wrong. -/
  | badRun (error : RunArgsError)
  /-- A command that needs a path has none. -/
  | noPath (command : String)
  /-- There is no code to explain. -/
  | noCode
  | unknown (command : String)
deriving DecidableEq

/-- What a command leaves behind. -/
structure Report where
  code : Nat
  stdout : String
  stderr : String
  writes : Array FileWrite

namespace Command

/-- The command that arguments ask for. -/
def ofArgs : List String → Command
  | [] => help
  | "run" :: args =>
    match RunArgs.parse args with
    | .ok (path, options) => run path options
    | .error e => badRun e
  | "lex" :: path :: _ => lex path
  | "lex" :: [] => noPath "lex"
  | "parse" :: path :: _ => parse path
  | "parse" :: [] => noPath "parse"
  | "explain" :: code :: _ | "--explain" :: code :: _ => explain code
  | "explain" :: [] | "--explain" :: [] => noCode
  | "help" :: _ | "--help" :: _ | "-h" :: _ => help
  | "version" :: _ | "--version" :: _ | "-V" :: _ => version
  | other :: _ => unknown other

/-- The file whose text a command needs. -/
def path? : Command → Option String
  | run path _ | lex path | parse path => some path
  | _ => none

/-- How the program is used. -/
def usage : String :=
  "Lumen interpreter\n" ++
  "\n" ++
  "Usage: lumen <command> [options]\n" ++
  "\n" ++
  "Commands:\n" ++
  "  run <file>     Evaluate a program\n" ++
  "  lex <file>     Print the token stream\n" ++
  "  parse <file>   Print the AST as an S-expression\n" ++
  "  explain <code> Describe an error code (e.g. E6001)\n" ++
  "  help           Show this message\n" ++
  "  version        Show version information\n" ++
  "\n" ++
  "Run options:\n" ++
  "  --max-depth=N                 Closure call depth limit (default 10000)\n" ++
  "  --color=auto|always|never     Colored diagnostics\n" ++
  "\n" ++
  "Set RUST_LOG (e.g. RUST_LOG=lumen_eval=trace) for interpreter logs.\n"

/-- A success with some output. -/
def success (stdout : String) : Report := ⟨0, stdout, "", #[]⟩

/-- A failure with a message. -/
def failure (stderr : String) : Report := ⟨1, "", stderr, #[]⟩

/-- A failure with a diagnostic about a source. -/
def failed (path source : String) (colors : Bool) (d : Diagnostic) : Report :=
  failure (Renderer.render ⟨colors, some (.ofString path source)⟩ d)

/-- The tokens of a source, one on a line. -/
def reportTokens (terminal : Bool) (path source : String) : Report :=
  match LambdaScript.lex source .fresh with
  | (.ok tokens, names) =>
    success (String.join (tokens.map fun t => s!"{t.span} {t.kind.describe names}\n"))
  | (.error e, _) => failed path source (ColorMode.auto.usesColors terminal) e.diagnostic

/-- The program in a source on one line. -/
def reportTree (terminal : Bool) (path source : String) : Report :=
  match parseSource source .fresh with
  | (.ok tree, names) => success (tree.dump names ++ "\n")
  | (.error e, _) => failed path source (ColorMode.auto.usesColors terminal) e.diagnostic

/-- What running a source leaves behind; nothing can be said of a run that does not end. -/
def reportRun (terminal : Bool) (path source : String) (options : RunOptions) : Option Report :=
  match runSource source .fresh options.limit (.terminal "") defaultFuel with
  | .done _ after => some ⟨0, after.console.printed, "", after.writes⟩
  | .failed e after =>
    let report := failed path source (options.color.usesColors terminal) e.diagnostic
    some { report with stdout := after.console.printed, writes := after.writes }
  | .unfinished => none

/-- What a command leaves behind that needs the text of a file. -/
def reportFile (path : String) (text : Except ReadFailure String)
    (report : String → Option Report) : Option Report :=
  match text with
  | .ok source => report source
  | .error e => some (failure ("error: " ++ e.message path ++ "\n"))

/-- One line on an error code. -/
def reportCode (code : String) : Report :=
  match ErrorCode.ofText? code with
  | some found => success (found.explain ++ "\n")
  | none => failure ("Unknown error code: " ++ code ++ "\n\n" ++
      "Codes look like E0001 (lexer), E1001 (parser) or E6001 (runtime).\n")

/-- What a command leaves behind, given the text of the file it needs. -/
def report (command : Command) (terminal : Bool) (text : Except ReadFailure String) :
    Option Report :=
  match command with
  | help => some (success usage)
  | version => some (success "lumen 0.1.0\n")
  | run path options => reportFile path text fun source => reportRun terminal path source options
  | lex path => reportFile path text fun source => some (reportTokens terminal path source)
  | parse path => reportFile path text fun source => some (reportTree terminal path source)
  | explain code => some (reportCode code)
  | badRun e => some (failure ("error: " ++ e.message ++ "\n" ++
      "Usage: lumen run <file> [--max-depth=N] [--color=auto|always|never]\n"))
  | noPath command => some (failure ("Usage: lumen " ++ command ++ " <file>\n"))
  | noCode => some (failure "Usage: lumen explain <ERROR_CODE>\nExample: lumen explain E6001\n")
  | unknown command => some ⟨1, usage, "Unknown command: " ++ command ++ "\n\n", #[]⟩

/-- Run a command line in a directory: what it leaves behind and the directory afterwards. -/
def runIn (dir : Directory) (terminal : Bool) (args : List String) : Option (Report × Directory) :=
  let command := ofArgs args
  let text := match command.path? with
    | some path => dir.read path
    | none => .error .notFound
  (command.report terminal text).map fun r => (r, dir.writeAll r.writes)

end Command

end LambdaScript
