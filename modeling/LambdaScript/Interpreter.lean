import LambdaScript.Evaluation
import LambdaScript.Grammar.Totality
/-!
# Interpreters

An `Interpreter` keeps a machine from one program to the next, together with the scope of the global
variables, the limit of nested calls and the number of lambda nodes met so far. It is made with the
built-ins bound, and further globals behind them.

A tree is loaded before it is run (`Interpreter.load`): its lambda nodes are then told apart from
all others. What has been loaded may be evaluated any number of times, in any scopes
(`Interpreter.evalCode`), and has the same lambda nodes each time. `runSource` reads a program and
runs it on an interpreter of its own.
-/

namespace LambdaScript

/-- How many closure calls may be nested, unless told otherwise. -/
def defaultLimit : Nat := 10000

/-- Fuel that no run uses up: each unit would take a step, and 2 ^ 62 steps take many years. -/
def defaultFuel : Nat := 0x4000000000000000

/-- A machine that programs are run on one after the other. -/
structure Interpreter where
  machine : Machine
  /-- The scope of the global variables. -/
  global : ScopeId
  /-- How many closure calls may be nested. -/
  limit : Nat
  /-- How many lambda nodes have been numbered. -/
  labels : Nat
deriving Inhabited

namespace Interpreter

/-- Number a string and bind it as a global. -/
def defineGlobal (i : Interpreter) (names : Interner) (name : String) (value : Value) :
    Interpreter × Interner :=
  let (n, names) := names.intern name
  ({ i with machine := i.machine.define i.global n value }, names)

/-- Bind the built-ins under their names as globals. -/
def registerPrelude (i : Interpreter) (names : Interner) : Interpreter × Interner :=
  Builtin.all.foldl (fun (i, names) b => i.defineGlobal names b.name (.function (.builtin b)))
    (i, names)

/-- An interpreter with the built-ins and then the given globals bound; a global may replace a
built-in of its name. -/
def build (names : Interner) (console : Console) (limit : Nat) (globals : List (String × Value)) :
    Interpreter × Interner :=
  let (global, machine) := (Machine.fresh console).withStore Store.newRoot
  let start := registerPrelude ⟨machine, global, limit, 0⟩ names
  globals.foldl (fun (i, names) (name, value) => i.defineGlobal names name value) start

/-- What a run needs to know. -/
def context (i : Interpreter) (names : Interner) : Context := ⟨names, i.limit⟩

/-- Run a computation on the machine of an interpreter. -/
@[inline] def onMachine {ε α : Type} (x : Run ε Machine α) : Run ε Interpreter α := fun i =>
  let ⟨machine, global, limit, labels⟩ := i
  match x machine with
  | .done a machine => .done a ⟨machine, global, limit, labels⟩
  | .failed e machine => .failed e ⟨machine, global, limit, labels⟩
  | .unfinished => .unfinished

/-- Number the lambda nodes of a tree that has just been made; no number is used twice by one
interpreter. -/
def load (i : Interpreter) (tree : Tree) : Code × Interpreter :=
  let (code, next) := tree.numbered i.labels
  (code, { i with labels := next })

/-- The value in a scope of what has been loaded, whether or not it was evaluated before. -/
def evalCode (names : Interner) (fuel : Nat) (scope : ScopeId) (code : Code) :
    Run RuntimeError Interpreter Value := fun i =>
  let ctx := i.context names
  onMachine (eval ctx fuel code scope) i

/-- Load a tree and evaluate it in a scope. A tree that this is done with twice is two programs; it
is for trees that have just been read. -/
def evalIn (names : Interner) (fuel : Nat) (scope : ScopeId) (tree : Tree) :
    Run RuntimeError Interpreter Value := fun i =>
  let (code, i) := i.load tree
  evalCode names fuel scope code i

/-- Load a program and run it on the global variables. -/
def evalProgram (names : Interner) (fuel : Nat) (tree : Tree) :
    Run RuntimeError Interpreter Value := fun i =>
  evalIn names fuel i.global tree i

/-- Call a value. -/
def callValue (names : Interner) (fuel : Nat) (callee : Value) (args : List Value) :
    Run RuntimeError Interpreter Value := fun i =>
  let ctx := i.context names
  onMachine (call ctx fuel callee args) i

/-- What was printed since the last time this was asked for; later printing starts afresh. -/
def takePrinted (i : Interpreter) : String × Interpreter :=
  (i.machine.console.kept, { i with machine := { i.machine with console := .buffer "" } })

end Interpreter

/-! ## Programs on their own -/

/-- Why a program has no value. -/
inductive RunError where
  | syntactic (error : SyntaxError)
  | runtime (error : RuntimeError)
deriving DecidableEq

/-- The text of an error. -/
def RunError.message : RunError → String
  | syntactic error => error.message
  | runtime error => error.message

/-- What a run leaves behind. -/
structure Aftermath where
  names : Interner
  console : Console
  writes : Array FileWrite
deriving Inhabited

/-- Read a program and run it on an interpreter of its own. -/
def runSource (source : String) (names : Interner) (limit : Nat) (console : Console) (fuel : Nat) :
    Outcome RunError Aftermath Value :=
  match parseSource source names with
  | (.error e, names) => .failed (.syntactic e) ⟨names, console, #[]⟩
  | (.ok tree, names) =>
    let (i, names) := Interpreter.build names console limit []
    match Interpreter.evalProgram names fuel tree i with
    | .done value i => .done value ⟨names, i.machine.console, i.machine.writes⟩
    | .failed e i => .failed (.runtime e) ⟨names, i.machine.console, i.machine.writes⟩
    | .unfinished => .unfinished

end LambdaScript
