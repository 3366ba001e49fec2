import LambdaScript.Machine
import LambdaScript.Outcome
import LambdaScript.Value.Operation
/-!
# Evaluating expressions

`eval` gives the value of an expression in a scope, or the first error met; the machine is known in
either case. Operands, arguments and items are evaluated from left to right. An error is blamed on
the innermost expression whose evaluation raised it.

Not every program comes to an end, so `eval` descends on its fuel: one unit for each step into a
part or into a called function, and no loop runs more often than there are units. Each function
below takes the evaluator of parts as an argument `sub`, and `eval` ties the knot.
-/

namespace LambdaScript

/-- What stays the same during a run: the spelling of names and the limit of nested calls. -/
structure Context where
  names : Interner
  limit : Nat

/-- A computation that runs on a machine. -/
abbrev Eval (α : Type) : Type := Run RuntimeError Machine α

namespace Eval

/-- Stop with a fault. -/
def fault {α : Type} (f : RuntimeFault) : Eval α := Run.fail (.ofFault f)

/-- The value of a step that may be at fault. -/
def ofExcept {α : Type} : Except RuntimeFault α → Eval α
  | .ok a => pure a
  | .error f => fault f

/-- A computation inside one more closure body, whichever way it ends. -/
def deeper {α : Type} (x : Eval α) : Eval α := fun m =>
  match x m.enter with
  | .done a m => .done a m.leave
  | .failed e m => .failed e m.leave
  | .unfinished => .unfinished

end Eval

/-- The evaluator of parts: an expression and the scope to evaluate it in. -/
abbrev Evaluator : Type := Code → ScopeId → Eval Value

/-! ## Variables -/

/-- The value of a name. -/
def readVariable (ctx : Context) (scope : ScopeId) (name : Name) : Eval Value := fun m =>
  match m.store.get scope name with
  | some value => .done value m
  | none => .failed (.ofFault (.undefinedVariable (ctx.names.spelling name))) m

/-- Set a name, and return the value. -/
def setVariable (ctx : Context) (scope : ScopeId) (name : Name) (value : Value) : Eval Value :=
  fun m =>
    match m.store.target? scope name with
    | some found => .done value (m.define found name value)
    | none => .failed (.ofFault (.undefinedVariable (ctx.names.spelling name))) m

/-! ## Calls -/

/-- Bind parameters to arguments in order: a missing argument is `false`, a surplus one is dropped,
and of a repeated parameter the last one counts. -/
def bindParams (store : Store) (scope : ScopeId) : List Name → List Value → Store
  | [], _ => store
  | param :: params, [] => bindParams (store.define scope param (.bool false)) scope params []
  | param :: params, arg :: args => bindParams (store.define scope param arg) scope params args

/-- The scope in which the body of a closure begins. -/
def enterScope (c : Closure) (args : List Value) : Eval ScopeId :=
  Run.update fun m => m.withStore fun store =>
    let (scope, store) := store.extend c.scope
    (scope, bindParams store scope c.params args)

/-- Call a closure, unless the limit of nested calls is reached. -/
def callClosure (ctx : Context) (sub : Evaluator) (c : Closure) (args : List Value) :
    Eval Value := do
  if ctx.limit ≤ (← Run.get).depth then Eval.fault (.stackOverflow ctx.limit)
  else
    let scope ← enterScope c args
    (sub c.body scope).deeper

/-- Call a built-in. A missing argument is `false`, except that `length` asks for a string. -/
def callBuiltin (ctx : Context) : Builtin → List Value → Eval Value
  | .print, args => do
    let value := args.headD (.bool false)
    Run.modify (·.printLine (value.display ctx.names))
    return .bool false
  | .length, args =>
    match args.head? with
    | some (.string s) => return .number (Float.ofNat s.length)
    | found => Eval.fault (.wrongArgument Builtin.length.name "a string" (found.map Value.kind))
  | .write, args => do
    let path := args.headD (.bool false)
    let contents := args.tail.headD (.bool false)
    Run.modify (·.writeFile (path.display ctx.names) (contents.display ctx.names))
    return .bool false

/-- Call a value with arguments. -/
def callValue (ctx : Context) (sub : Evaluator) (callee : Value) (args : List Value) : Eval Value :=
  match callee with
  | .function (.closure c) => callClosure ctx sub c args
  | .function (.builtin b) => callBuiltin ctx b args
  | other => Eval.fault (.notCallable other.kind)

/-! ## Expressions made of parts -/

/-- The left operand decides alone: `false` for `&&`, anything else for `||`. -/
def decides (op : BinaryOp) (left : Value) : Bool :=
  op.isShortCircuit && left.isFalse == (op == .and)

/-- An operator: the right operand is evaluated unless the left one decides. -/
def evalBinary (sub : Evaluator) (scope : ScopeId) (op : BinaryOp) (left right : Code) :
    Eval Value := do
  let a ← sub left scope
  if decides op a then return a
  let b ← sub right scope
  Eval.ofExcept (Value.binary op a b)

/-- Items one after the other; the value is that of the last one, and `last` if there is none. -/
def evalSeq (sub : Evaluator) (scope : ScopeId) (last : Value) : List Code → Eval Value
  | [] => return last
  | item :: items => do
    let value ← sub item scope
    evalSeq sub scope value items

/-- The values of a list of expressions, behind those in `before`, which are held in reverse. -/
def evalArgs (sub : Evaluator) (scope : ScopeId) (before : List Value) :
    List Code → Eval (List Value)
  | [] => return before.reverse
  | arg :: args => do
    let value ← sub arg scope
    evalArgs sub scope (value :: before) args

/-- A loop; the value is that of the last round, and `last` if there is none. -/
def evalLoop (sub : Evaluator) (scope : ScopeId) (condition body : Code) :
    Nat → Value → Eval Value
  | 0, _ => Run.outOfFuel
  | fuel + 1, last => do
    if (← sub condition scope).isFalse then return last
    let value ← sub body scope
    evalLoop sub scope condition body fuel value

/-- A call: the function, then its arguments, then its body. -/
def evalCall (ctx : Context) (sub : Evaluator) (scope : ScopeId) (callee : Code)
    (args : List Code) : Eval Value := do
  let f ← sub callee scope
  let values ← evalArgs sub scope [] args
  callValue ctx sub f values

/-- One expression, its parts evaluated by `sub`. -/
def evalNode (ctx : Context) (sub : Evaluator) (fuel : Nat) (scope : ScopeId) : Code → Eval Value
  | .number _ x => return .number x
  | .string _ contents => return .string (ctx.names.spelling contents)
  | .bool _ b => return .bool b
  | .var _ name => readVariable ctx scope name
  | .assign _ target value => do
    let value ← sub value scope
    setVariable ctx scope target value
  | .binary _ op left right => evalBinary sub scope op left right
  | .ifThen _ condition thenBranch => do
    if (← sub condition scope).isFalse then return .bool false
    else sub thenBranch scope
  | .ifElse _ condition thenBranch elseBranch => do
    if (← sub condition scope).isFalse then sub elseBranch scope
    else sub thenBranch scope
  | .loop _ condition body => evalLoop sub scope condition body fuel (.bool false)
  | .seq _ items => evalSeq sub scope (.bool false) items
  | .lambda _ label params body => return .function (.closure ⟨label, params, body, scope⟩)
  | .call _ callee args => evalCall ctx sub scope callee args

/-- The value of an expression in a scope. -/
def eval (ctx : Context) : Nat → Evaluator
  | 0 => fun _ _ => Run.outOfFuel
  | fuel + 1 => fun e scope =>
    Run.mapError (·.located e.span) (evalNode ctx (eval ctx fuel) fuel scope e)

/-- Call a value from outside of any expression. -/
def call (ctx : Context) (fuel : Nat) (callee : Value) (args : List Value) : Eval Value :=
  callValue ctx (eval ctx fuel) callee args

end LambdaScript
