import LambdaScript.Value
/-!
# Scopes

A store holds scopes, numbered in the order in which they were made and never dropped. A scope binds
names to values and has a parent, except for roots. A name is looked up in a scope and then in the
scopes around it:

* `Store.lookup` finds the nearest scope that binds a name, `Store.get` the value there;
* `Store.define` binds a name in a scope;
* `Store.set` changes the nearest binding, and makes a new one only in a root.
-/

namespace LambdaScript

/-- Bindings of names, and the scope around. -/
structure Scope where
  bindings : Std.TreeMap Name Value
  parent : Option ScopeId

/-- All scopes ever made. -/
structure Store where
  scopes : Array Scope
deriving Inhabited

namespace Store

/-- No scope at all. -/
def empty : Store := ⟨#[]⟩

/-- Make a scope without bindings. -/
def newScope (store : Store) (parent : Option ScopeId) : ScopeId × Store :=
  (store.scopes.size, ⟨store.scopes.push ⟨∅, parent⟩⟩)

/-- Make a root. -/
def newRoot (store : Store) : ScopeId × Store := store.newScope none

/-- Make a scope inside `scope`. -/
def extend (store : Store) (scope : ScopeId) : ScopeId × Store := store.newScope (some scope)

/-- The scope around `scope`. A scope is made after the one around it, which is checked here so that
going outwards is seen to end. -/
def parent? (store : Store) (scope : ScopeId) : Option ScopeId :=
  match store.scopes[scope]? with
  | some ⟨_, some outer⟩ => if outer < scope then some outer else none
  | _ => none

theorem parent?_lt {store : Store} {scope outer : ScopeId} (h : store.parent? scope = some outer) :
    outer < scope := by
  unfold parent? at h
  split at h
  · split at h <;> simp_all
  · simp at h

/-- There is no scope around `scope`. -/
def isRoot (store : Store) (scope : ScopeId) : Bool := (store.parent? scope).isNone

/-- The value that `scope` itself binds a name to. -/
def binding? (store : Store) (scope : ScopeId) (name : Name) : Option Value :=
  store.scopes[scope]?.bind (·.bindings[name]?)

/-- How many names `scope` itself binds. -/
def bindingCount (store : Store) (scope : ScopeId) : Nat :=
  (store.scopes[scope]?.map (·.bindings.size)).getD 0

/-- The nearest scope that binds a name, from `scope` outwards. -/
def lookup (store : Store) (scope : ScopeId) (name : Name) : Option ScopeId :=
  match store.binding? scope name with
  | some _ => some scope
  | none =>
    match _h : store.parent? scope with
    | some outer => store.lookup outer name
    | none => none
termination_by scope
decreasing_by exact parent?_lt _h

/-- The value of a name in the nearest scope that binds it. -/
def get (store : Store) (scope : ScopeId) (name : Name) : Option Value :=
  match store.binding? scope name with
  | some value => some value
  | none =>
    match _h : store.parent? scope with
    | some outer => store.get outer name
    | none => none
termination_by scope
decreasing_by exact parent?_lt _h

/-- Bind a name in `scope` itself. -/
def define (store : Store) (scope : ScopeId) (name : Name) (value : Value) : Store :=
  ⟨store.scopes.modify scope fun s => { s with bindings := s.bindings.insert name value }⟩

/-- The scope in which setting a name changes a binding: the nearest one that binds it already, or
else `scope` itself if that is a root. -/
def target? (store : Store) (scope : ScopeId) (name : Name) : Option ScopeId :=
  match store.lookup scope name with
  | some found => some found
  | none => if store.isRoot scope then some scope else none

/-- Bind a name where setting it changes a binding, if there is such a scope. -/
def set (store : Store) (scope : ScopeId) (name : Name) (value : Value) : Option Store :=
  (store.target? scope name).map fun found => store.define found name value

/-- The shape of a scope: how much it binds and whether it is a root. -/
def summary (store : Store) (scope : ScopeId) : String :=
  s!"Environment \x7b bindings: {store.bindingCount scope}, root: {store.isRoot scope} \x7d"

end Store

end LambdaScript
