import LambdaScript.Store
/-!
# What a running program changes

A `Machine` is all that evaluation reads and changes: the scopes, what has been printed, which files
have been written, and how many closure bodies are being evaluated. Writing a file is only recorded
here; whether it succeeds makes no difference to the program.
-/

namespace LambdaScript

/-- Where printed lines go, and what was printed: to a terminal, or into a buffer that can be read
again. -/
inductive Console where
  | terminal (printed : String)
  | buffer (printed : String)
deriving Inhabited, DecidableEq

namespace Console

/-- All that was printed. -/
def printed : Console → String
  | terminal text | buffer text => text

/-- What can be read again: nothing of what went to a terminal. -/
def kept : Console → String
  | terminal _ => ""
  | buffer text => text

/-- Print a line. -/
def printLine (line : String) : Console → Console
  | terminal text => terminal (text ++ line ++ "\n")
  | buffer text => buffer (text ++ line ++ "\n")

end Console

/-- A file that a program wrote: its path and its new contents. -/
structure FileWrite where
  path : String
  contents : String
deriving DecidableEq

/-- The state of a running program. -/
structure Machine where
  store : Store
  console : Console
  /-- Files written, the first one first. -/
  writes : Array FileWrite
  /-- Closure bodies being evaluated. -/
  depth : Nat
deriving Inhabited

namespace Machine

/-- A machine on which nothing has happened. -/
def fresh (console : Console) : Machine := ⟨.empty, console, #[], 0⟩

/-- Change the scopes and return what `f` gives beside them. -/
@[inline] def withStore {α : Type} (m : Machine) (f : Store → α × Store) : α × Machine :=
  let ⟨store, console, writes, depth⟩ := m
  let (a, store) := f store
  (a, ⟨store, console, writes, depth⟩)

/-- Bind a name in a scope. -/
def define (m : Machine) (scope : ScopeId) (name : Name) (value : Value) : Machine :=
  { m with store := m.store.define scope name value }

/-- Print a line. -/
def printLine (m : Machine) (line : String) : Machine :=
  { m with console := m.console.printLine line }

/-- Record that a file was written. -/
def writeFile (m : Machine) (path contents : String) : Machine :=
  { m with writes := m.writes.push ⟨path, contents⟩ }

/-- One more closure body is being evaluated. -/
def enter (m : Machine) : Machine := { m with depth := m.depth + 1 }

/-- One closure body less is being evaluated. -/
def leave (m : Machine) : Machine := { m with depth := m.depth - 1 }

end Machine

end LambdaScript
