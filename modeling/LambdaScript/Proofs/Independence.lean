import LambdaScript.Proofs.Reachability
import LambdaScript.Proofs.Renaming
import LambdaScript.Proofs.Session
/-!
# Evaluation depends on what it can reach

An expression is evaluated on two machines that have a region of scopes in common
(`Shift.Machines`). The second one may have further scopes, which is why the scopes made on the way
have other numbers there, and other things may be bound outside of the region. The two evaluations
do the same (`Shift.imitates_eval`). So evaluating something else before, in scopes that are apart
from the region, makes no difference (`eval_apart`).
-/

namespace LambdaScript

open Store

/-- On two machines the same was printed and written since they were `before` and `before'`. -/
structure SameOutput (before m before' m' : Machine) : Prop where
  printed : ∃ text, m.console.printed = before.console.printed ++ text ∧
    m'.console.printed = before'.console.printed ++ text
  writes : ∃ files, m.writes = before.writes ++ files ∧ m'.writes = before'.writes ++ files

/-- How the numbers of scopes differ between two runs that begin with a region in common. -/
structure Shift where
  /-- How many scopes the first machine has at the beginning. -/
  base : Nat
  /-- How many more the second one has. -/
  gap : Nat
  /-- The region, and the scopes that are made later. -/
  Mem : ScopeId → Prop
  fresh : ∀ {s}, base ≤ s → Mem s
  /-- What the machines have printed and written at the beginning. -/
  before : Machine
  before' : Machine

namespace Shift

variable (T : Shift)

/-- The number of a scope on the second machine. -/
def scope (s : Nat) : Nat := if s < T.base then s else s + T.gap

def callable : Callable → Callable
  | .closure c => .closure { c with scope := T.scope c.scope }
  | .builtin b => .builtin b

/-- A value on the second machine. -/
def value (v : Value) : Value := v.onFunctions T.callable

/-- A closure comes from inside of the region. -/
def Fits (v : Value) : Prop := ∀ c, v = .function (.closure c) → T.Mem c.scope

/-- Stores that correspond inside of the region. -/
structure Stores (store store' : Store) : Prop where
  base_le : T.base ≤ store.scopes.size
  size : store'.scopes.size = store.scopes.size + T.gap
  closed : ∀ s t, T.Mem s → store.Link s t → T.Mem t
  parent : ∀ s, T.Mem s → store'.parent? (T.scope s) = (store.parent? s).map T.scope
  binding : ∀ s x, T.Mem s →
    store'.binding? (T.scope s) x = (store.binding? s x).map T.value

/-- Machines that correspond inside of the region, and have done the same. -/
structure Machines (m m' : Machine) : Prop where
  store : T.Stores m.store m'.store
  output : SameOutput T.before m T.before' m'
  depth : m'.depth = m.depth

/-- Two evaluations end alike, in values that are related by `R` or in the same error. -/
inductive Agrees {α β : Type} (R : α → β → Prop) :
    Outcome RuntimeError Machine α → Outcome RuntimeError Machine β → Prop where
  | done {a b m m'} (h : R a b) (hm : T.Machines m m') : Agrees R (.done a m) (.done b m')
  | failed {e m m'} (hm : T.Machines m m') : Agrees R (.failed e m) (.failed e m')
  | unfinished : Agrees R .unfinished .unfinished

/-- The two computations agree on all machines that correspond. -/
def Imitates {α β : Type} (R : α → β → Prop) (x : Eval α) (x' : Eval β) : Prop :=
  ∀ m m', T.Machines m m' → T.Agrees R (x m) (x' m')

/-- A value on both machines. -/
def Values (v v' : Value) : Prop := T.Fits v ∧ v' = T.value v

/-- Lists of values on both machines. -/
abbrev Lists : List Value → List Value → Prop := List.Forall₂ T.Values

variable {T}

/-! ## Numbers of scopes -/

theorem scope_lt_iff {s t : Nat} : T.scope s < T.scope t ↔ s < t := by
  unfold scope
  split <;> split <;> omega

theorem scope_inj {s t : Nat} : T.scope s = T.scope t ↔ s = t := by
  unfold scope
  split <;> split <;> omega

theorem same_callable (f g : Callable) : (T.callable f).same (T.callable g) = f.same g := by
  cases f <;> cases g
  case closure.closure c d =>
    have hscope : (T.scope c.scope == T.scope d.scope) = (c.scope == d.scope) := by
      rw [Bool.eq_iff_iff, beq_iff_eq, beq_iff_eq, scope_inj]
    show (c.label == d.label && T.scope c.scope == T.scope d.scope) = _
    rw [hscope]
    rfl
  all_goals rfl

/-- The scope that is made next has corresponding numbers. -/
theorem Stores.scope_size {store store' : Store} (hs : T.Stores store store') :
    T.scope store.scopes.size = store'.scopes.size := by
  rw [scope, if_neg (Nat.not_lt_of_le hs.base_le), hs.size]

/-! ## Values -/

theorem values_plain {v : Value} (h : ∀ f, v ≠ .function f) : T.Values v v := by
  refine ⟨fun c hc => absurd hc (h _), ?_⟩
  cases v with
  | function f => exact absurd rfl (h f)
  | number | string | bool => rfl

theorem values_bool (b : Bool) : T.Values (.bool b) (.bool b) := values_plain fun _ h => nomatch h

theorem isFalse_eq {v v' : Value} (h : T.Values v v') : v'.isFalse = v.isFalse := by
  rw [h.2, value, Value.isFalse_onFunctions]

theorem display_value (names : Interner) (v : Value) :
    (T.value v).display names = v.display names := by
  rcases v with x | s | b | c | b <;> rfl

/-! ## Stores -/

namespace Stores

variable {store store' : Store} (hs : T.Stores store store') {s found : ScopeId} {x : Name}
  {v : Value}
include hs

theorem mem_of_reachable (hmem : T.Mem s) (hreach : store.Reachable s found) : T.Mem found := by
  induction hreach with
  | refl => exact hmem
  | tail _ hlink ih => exact hs.closed _ _ ih hlink

theorem lookup (hmem : T.Mem s) (x : Name) :
    store'.lookup (T.scope s) x = (store.lookup s x).map T.scope := by
  -- both go outwards until the name is bound
  fun_induction Store.lookup store s x with
  | case1 s value hvalue =>
    apply lookup_of_binds
    rw [Binds, hs.binding s x hmem, hvalue]
    rfl
  | case2 s hnone outer hparent ih =>
    rw [← ih (hs.closed s outer hmem (.parent hparent))]
    refine lookup_of_parent ?_ ?_
    · rw [Binds, hs.binding s x hmem, hnone]
      exact Bool.false_ne_true
    · rw [hs.parent s hmem, hparent]
      rfl
  | case3 s hnone hparent =>
    refine lookup_of_root ?_ ?_
    · rw [Binds, hs.binding s x hmem, hnone]
      exact Bool.false_ne_true
    · rw [hs.parent s hmem, hparent]
      rfl

theorem get (hmem : T.Mem s) (x : Name) :
    store'.get (T.scope s) x = (store.get s x).map T.value := by
  rw [get_eq_lookup, get_eq_lookup, hs.lookup hmem]
  cases hlookup : store.lookup s x with
  | none => rfl
  | some found =>
    exact hs.binding found x (hs.mem_of_reachable hmem (reachable_of_lookup hlookup))

theorem target? (hmem : T.Mem s) (x : Name) :
    store'.target? (T.scope s) x = (store.target? s x).map T.scope := by
  rw [Store.target?, Store.target?, isRoot, isRoot, hs.lookup hmem, hs.parent s hmem,
    Option.isNone_map]
  cases store.lookup s x with
  | some found => rfl
  | none => cases (store.parent? s).isNone <;> rfl

theorem define (hv : T.Fits v) (found : ScopeId) (x : Name) :
    T.Stores (store.define found x v) (store'.define (T.scope found) x (T.value v)) where
  base_le := by rw [size_define]; exact hs.base_le
  size := by rw [size_define, size_define, hs.size]
  closed s t hmem hlink := by
    rcases hlink.of_define with hlink | ⟨-, c, hc, rfl⟩
    · exact hs.closed s t hmem hlink
    · exact hv c hc
  parent s hmem := by rw [parent?_define, parent?_define, hs.parent s hmem]
  binding s y hmem := by
    have hlt : T.scope found < store'.scopes.size ↔ found < store.scopes.size := by
      rw [← hs.scope_size, scope_lt_iff]
    simp only [binding?_define, scope_inj, hlt, hs.binding s y hmem]
    split <;> rfl

theorem extend {outer : ScopeId} (hmem : T.Mem outer) :
    T.Stores (store.extend outer).2 (store'.extend (T.scope outer)).2 where
  base_le := by
    have hbase := hs.base_le
    rw [size_extend]
    omega
  size := by
    rw [size_extend, size_extend, hs.size]
    omega
  closed s t hs' hlink := by
    cases hlink with
    | parent hparent =>
      rw [parent?_extend] at hparent
      split at hparent
      · cases Option.eq_some_of_filter_eq_some hparent
        exact hmem
      · exact hs.closed s t hs' (.parent hparent)
    | captured hbinding =>
      rw [binding?_extend] at hbinding
      exact hs.closed _ _ hs' (.captured hbinding)
  parent s hs' := by
    simp only [parent?_extend, ← hs.scope_size, scope_inj, hs.parent s hs']
    split
    · -- the scope around must have been made before, on both machines
      simp only [Option.filter_some, decide_eq_true_eq, scope_lt_iff]
      split <;> rfl
    · rfl
  binding s x hs' := by rw [binding?_extend, binding?_extend, hs.binding s x hs']

end Stores

theorem Stores.bindParams {store store' : Store} (hs : T.Stores store store') (s : ScopeId)
    (params : List Name) {args args' : List Value} (hargs : T.Lists args args') :
    T.Stores (bindParams store s params args) (bindParams store' (T.scope s) params args') := by
  induction params generalizing store store' args args' with
  | nil => exact hs
  | cons param params ih =>
    cases hargs with
    | nil => exact ih (hs.define (values_bool false).1 s param) .nil
    | cons hv hargs =>
      obtain ⟨hfits, rfl⟩ := hv
      exact ih (hs.define hfits s param) hargs

/-! ## Ways to put computations together -/

section
variable {α β γ δ : Type} {R : α → β → Prop} {Q : γ → δ → Prop}

theorem imitates_pure {a : α} {b : β} (h : R a b) : T.Imitates R (pure a) (pure b) :=
  fun _ _ hm => .done h hm

theorem imitates_fault (f : RuntimeFault) : T.Imitates R (Eval.fault f) (Eval.fault f) :=
  fun _ _ hm => .failed hm

theorem imitates_bind {x : Eval α} {x' : Eval β} {f : α → Eval γ} {f' : β → Eval δ}
    (hx : T.Imitates R x x') (hf : ∀ a b, R a b → T.Imitates Q (f a) (f' b)) :
    T.Imitates Q (x >>= f) (x' >>= f') := by
  intro m m' hm
  have hfirst := hx m m' hm
  rw [Run.bind_apply, Run.bind_apply]
  generalize x m = o at hfirst
  generalize x' m' = o' at hfirst
  cases hfirst with
  | done h hm => exact hf _ _ h _ _ hm
  | failed hm => exact .failed hm
  | unfinished => exact .unfinished

theorem imitates_ite {p : Prop} [Decidable p] {x y : Eval α} {x' y' : Eval β}
    (hx : T.Imitates R x x') (hy : T.Imitates R y y') :
    T.Imitates R (if p then x else y) (if p then x' else y') := by
  split
  · exact hx
  · exact hy

theorem imitates_deeper {x : Eval α} {x' : Eval β} (hx : T.Imitates R x x') :
    T.Imitates R x.deeper x'.deeper := by
  intro m m' hm
  have hinner := hx m.enter m'.enter
    ⟨hm.store, ⟨hm.output.printed, hm.output.writes⟩, congrArg (· + 1) hm.depth⟩
  have hleave : ∀ {m m'}, T.Machines m m' → T.Machines m.leave m'.leave :=
    fun hm => ⟨hm.store, ⟨hm.output.printed, hm.output.writes⟩, congrArg (· - 1) hm.depth⟩
  rw [Eval.deeper, Eval.deeper]
  generalize x m.enter = o at hinner
  generalize x' m'.enter = o' at hinner
  cases hinner with
  | done h hm => exact .done h (hleave hm)
  | failed hm => exact .failed (hleave hm)
  | unfinished => exact .unfinished

theorem imitates_mapError {x : Eval α} {x' : Eval β} (f : RuntimeError → RuntimeError)
    (hx : T.Imitates R x x') : T.Imitates R (Run.mapError f x) (Run.mapError f x') := by
  intro m m' hm
  have hinner := hx m m' hm
  rw [Run.mapError, Run.mapError]
  generalize x m = o at hinner
  generalize x' m' = o' at hinner
  cases hinner with
  | done h hm => exact .done h hm
  | failed hm => exact .failed hm
  | unfinished => exact .unfinished

end

/-! ## Variables and calls -/

section
variable {ctx : Context} {s : ScopeId}

theorem imitates_readVariable (hmem : T.Mem s) (x : Name) :
    T.Imitates T.Values (readVariable ctx s x) (readVariable ctx (T.scope s) x) := by
  intro m m' hm
  rw [readVariable, readVariable, hm.store.get hmem]
  cases hget : m.store.get s x with
  | some v =>
    refine .done ⟨?_, rfl⟩ hm
    rintro c rfl
    exact hm.store.mem_of_reachable hmem (reachable_of_get hget)
  | none => exact .failed hm

theorem imitates_setVariable (hmem : T.Mem s) (x : Name) {v v' : Value} (hv : T.Values v v') :
    T.Imitates T.Values (setVariable ctx s x v) (setVariable ctx (T.scope s) x v') := by
  intro m m' hm
  obtain ⟨hfits, rfl⟩ := hv
  rw [setVariable, setVariable, hm.store.target? hmem]
  cases htarget : m.store.target? s x with
  | some found =>
    exact .done ⟨hfits, rfl⟩
      ⟨hm.store.define hfits found x, ⟨hm.output.printed, hm.output.writes⟩, hm.depth⟩
  | none => exact .failed hm

theorem imitates_enterScope (c : Closure) (hc : T.Mem c.scope) {args args' : List Value}
    (hargs : T.Lists args args') :
    T.Imitates (fun inner inner' => T.Mem inner ∧ inner' = T.scope inner) (enterScope c args)
      (enterScope { c with scope := T.scope c.scope } args') := by
  intro m m' hm
  have hscope : (m'.store.extend (T.scope c.scope)).1 = T.scope (m.store.extend c.scope).1 :=
    hm.store.scope_size.symm
  have hnew : T.Mem (m.store.extend c.scope).1 := T.fresh hm.store.base_le
  have hentered := (hm.store.extend hc).bindParams (m.store.extend c.scope).1 c.params hargs
  rw [enterScope_apply, enterScope_apply]
  refine .done ⟨hnew, hscope⟩ ⟨?_, ⟨hm.output.printed, hm.output.writes⟩, hm.depth⟩
  show T.Stores (bindParams _ _ c.params args) (bindParams _ _ c.params args')
  rw [hscope]
  exact hentered

theorem Machines.printLine {m m' : Machine} (hm : T.Machines m m') (line : String) :
    T.Machines (m.printLine line) (m'.printLine line) := by
  obtain ⟨text, htext, htext'⟩ := hm.output.printed
  have hprinted : ∀ m : Machine, (m.printLine line).console.printed =
      m.console.printed ++ line ++ "\n" := by
    rintro ⟨store, console, writes, depth⟩
    cases console <;> rfl
  refine ⟨hm.store, ⟨⟨text ++ line ++ "\n", ?_, ?_⟩, hm.output.writes⟩, hm.depth⟩
  · rw [hprinted, htext, String.append_assoc, String.append_assoc, String.append_assoc]
  · rw [hprinted, htext', String.append_assoc, String.append_assoc, String.append_assoc]

theorem Machines.writeFile {m m' : Machine} (hm : T.Machines m m') (path contents : String) :
    T.Machines (m.writeFile path contents) (m'.writeFile path contents) := by
  obtain ⟨files, hfiles, hfiles'⟩ := hm.output.writes
  refine ⟨hm.store, ⟨hm.output.printed, files.push ⟨path, contents⟩, ?_, ?_⟩, hm.depth⟩
  · rw [Machine.writeFile, hfiles, Array.push_append]
  · rw [Machine.writeFile, hfiles', Array.push_append]

theorem imitates_callBuiltin (b : Builtin) {args args' : List Value} (hargs : T.Lists args args') :
    T.Imitates T.Values (callBuiltin ctx b args) (callBuiltin ctx b args') := by
  cases b with
  | print =>
    intro m m' hm
    have hline := forall₂_headD hargs (values_bool false)
    rw [callBuiltin, callBuiltin, hline.2, display_value]
    exact .done (values_bool false) (hm.printLine _)
  | write =>
    intro m m' hm
    have hpath := forall₂_headD hargs (values_bool false)
    have hcontents := forall₂_headD (forall₂_tail hargs) (values_bool false)
    rw [callBuiltin, callBuiltin, hpath.2, hcontents.2, display_value, display_value]
    exact .done (values_bool false) (hm.writeFile _ _)
  | length =>
    rw [callBuiltin, callBuiltin]
    rcases hargs with _ | ⟨⟨-, rfl⟩, -⟩
    · exact imitates_fault _
    rename_i v _ _
    rcases v with x | s | b | c | b
    case string =>
      refine imitates_pure (values_plain fun c hc => ?_)
      cases hc
    all_goals exact imitates_fault _

/-! ## Evaluation -/

variable {sub : Evaluator}
  (hsub : ∀ e s, T.Mem s → T.Imitates T.Values (sub e s) (sub e (T.scope s)))
include hsub

theorem imitates_callClosure (c : Closure) (hc : T.Mem c.scope) {args args' : List Value}
    (hargs : T.Lists args args') : T.Imitates T.Values (callClosure ctx sub c args)
      (callClosure ctx sub { c with scope := T.scope c.scope } args') := by
  intro m m' hm
  have hbody := imitates_bind (imitates_enterScope c hc hargs) fun inner inner' hinner =>
    imitates_deeper (hinner.2 ▸ hsub c.body inner hinner.1)
  rw [callClosure, callClosure, Run.bind_apply, Run.bind_apply]
  simp only [Run.get, hm.depth]
  exact imitates_ite (imitates_fault _) hbody m m' hm

theorem imitates_callValue {f f' : Value} (hf : T.Values f f') {args args' : List Value}
    (hargs : T.Lists args args') :
    T.Imitates T.Values (callValue ctx sub f args) (callValue ctx sub f' args') := by
  obtain ⟨hfits, rfl⟩ := hf
  rcases f with x | s | b | c | b
  case function.closure => exact imitates_callClosure hsub c (hfits c rfl) hargs
  case function.builtin => exact imitates_callBuiltin b hargs
  all_goals exact imitates_fault _

theorem imitates_evalBinary (hmem : T.Mem s) (op : BinaryOp) (left right : Code) :
    T.Imitates T.Values (evalBinary sub s op left right)
      (evalBinary sub (T.scope s) op left right) := by
  refine imitates_bind (hsub left s hmem) fun a a' ha => ?_
  have hdecides : decides op a' = decides op a := by rw [decides, decides, isFalse_eq ha]
  rw [hdecides]
  refine imitates_ite (imitates_pure ha) (imitates_bind (hsub right s hmem) fun b b' hb => ?_)
  rw [ha.2, hb.2, value, value, Value.binary_onFunctions same_callable]
  cases hop : Value.binary op a b with
  | error fault => exact imitates_fault fault
  | ok v =>
    refine imitates_pure ⟨?_, rfl⟩
    rintro c rfl
    -- a function can only be the value of one of the operands
    rcases Value.eq_of_binary_function hop with rfl | rfl
    · exact ha.1 c rfl
    · exact hb.1 c rfl

theorem imitates_evalSeq (hmem : T.Mem s) (items : List Code) {last last' : Value}
    (hlast : T.Values last last') :
    T.Imitates T.Values (evalSeq sub s last items) (evalSeq sub (T.scope s) last' items) := by
  induction items generalizing last last' with
  | nil => exact imitates_pure hlast
  | cons item items ih => exact imitates_bind (hsub item s hmem) fun v v' hv => ih hv

theorem imitates_evalArgs (hmem : T.Mem s) (args : List Code) {before before' : List Value}
    (hbefore : T.Lists before before') :
    T.Imitates T.Lists (evalArgs sub s before args) (evalArgs sub (T.scope s) before' args) := by
  induction args generalizing before before' with
  | nil => exact imitates_pure (List.rel_reverse hbefore)
  | cons arg args ih =>
    exact imitates_bind (hsub arg s hmem) fun v v' hv => ih (.cons hv hbefore)

theorem imitates_evalLoop (hmem : T.Mem s) (condition body : Code) (fuel : Nat)
    {last last' : Value} (hlast : T.Values last last') :
    T.Imitates T.Values (evalLoop sub s condition body fuel last)
      (evalLoop sub (T.scope s) condition body fuel last') := by
  induction fuel generalizing last last' with
  | zero => exact fun _ _ _ => .unfinished
  | succ fuel ih =>
    refine imitates_bind (hsub condition s hmem) fun test test' htest => ?_
    rw [isFalse_eq htest]
    exact imitates_ite (imitates_pure hlast)
      (imitates_bind (hsub body s hmem) fun v v' hv => ih hv)

theorem imitates_evalCall (hmem : T.Mem s) (callee : Code) (args : List Code) :
    T.Imitates T.Values (evalCall ctx sub s callee args)
      (evalCall ctx sub (T.scope s) callee args) := by
  refine imitates_bind (hsub callee s hmem) fun f f' hf => ?_
  exact imitates_bind (imitates_evalArgs hsub hmem args .nil)
    fun values values' hvalues => imitates_callValue hsub hf hvalues

theorem imitates_evalNode (hmem : T.Mem s) (fuel : Nat) (e : Code) :
    T.Imitates T.Values (evalNode ctx sub fuel s e) (evalNode ctx sub fuel (T.scope s) e) := by
  cases e with
  | number | string | bool => exact imitates_pure (values_plain fun _ h => nomatch h)
  | lambda span label params body =>
    refine imitates_pure ⟨?_, rfl⟩
    intro c hc
    cases hc
    exact hmem
  | var span x => exact imitates_readVariable hmem x
  | assign span x value =>
    exact imitates_bind (hsub value s hmem) fun v v' hv => imitates_setVariable hmem x hv
  | binary span op left right => exact imitates_evalBinary hsub hmem op left right
  | ifThen span condition thenBranch =>
    refine imitates_bind (hsub condition s hmem) fun test test' htest => ?_
    rw [isFalse_eq htest]
    exact imitates_ite (imitates_pure (values_bool false)) (hsub thenBranch s hmem)
  | ifElse span condition thenBranch elseBranch =>
    refine imitates_bind (hsub condition s hmem) fun test test' htest => ?_
    rw [isFalse_eq htest]
    exact imitates_ite (hsub elseBranch s hmem) (hsub thenBranch s hmem)
  | loop span condition body =>
    exact imitates_evalLoop hsub hmem condition body fuel (values_bool false)
  | seq span items => exact imitates_evalSeq hsub hmem items (values_bool false)
  | call span callee args => exact imitates_evalCall hsub hmem callee args

end

/-- The two evaluations of an expression agree. -/
theorem imitates_eval (ctx : Context) (fuel : Nat) (e : Code) (s : ScopeId) (hmem : T.Mem s) :
    T.Imitates T.Values (eval ctx fuel e s) (eval ctx fuel e (T.scope s)) := by
  induction fuel generalizing e s with
  | zero => exact fun _ _ _ => .unfinished
  | succ fuel ih => exact imitates_mapError _ (imitates_evalNode ih hmem fuel e)

end Shift

/-! ## What is apart -/

/-- The same value, except that a closure may have been made in another scope. -/
def Value.Resembles (v v' : Value) : Prop :=
  v' = v ∨ ∃ c s, v = .function (.closure c) ∧ v' = .function (.closure { c with scope := s })

/-- Two evaluations, begun on `before` and on `before'`, have the same result and output. -/
inductive EndAlike (before before' : Machine) :
    Outcome RuntimeError Machine Value → Outcome RuntimeError Machine Value → Prop where
  | done {v v' m m'} (hv : v.Resembles v') (hm : SameOutput before m before' m') :
      EndAlike before before' (.done v m) (.done v' m')
  | failed {e m m'} (hm : SameOutput before m before' m') :
      EndAlike before before' (.failed e m) (.failed e m')
  | unfinished : EndAlike before before' .unfinished .unfinished

/-- A later machine, on which everything that can be reached from a scope is as it was, so that
evaluation in that scope does the same as before. -/
structure Spared (ctx : Context) (scope : ScopeId) (m m' : Machine) : Prop where
  reachable_iff : ∀ s, m'.store.Reachable scope s ↔ m.store.Reachable scope s
  parent?_eq : ∀ s, m.store.Reachable scope s → m'.store.parent? s = m.store.parent? s
  binding?_eq : ∀ s, m.store.Reachable scope s →
    ∀ x, m'.store.binding? s x = m.store.binding? s x
  endAlike : ∀ fuel e, EndAlike m m' (eval ctx fuel e scope m) (eval ctx fuel e scope m')

theorem Shift.resembles_value {T : Shift} (v : Value) : v.Resembles (T.value v) := by
  rcases v with x | s | b | c | b
  case function.closure => exact .inr ⟨c, _, rfl, rfl⟩
  all_goals exact .inl rfl

section
variable {ctx : Context} {a b : ScopeId} {m m' : Machine}

/-- The region of what can be reached from a scope, before and after something else was done. -/
def Shift.reached (scope : ScopeId) (m m' : Machine) : Shift where
  base := m.store.scopes.size
  gap := m'.store.scopes.size - m.store.scopes.size
  Mem s := m.store.Reachable scope s ∨ m.store.scopes.size ≤ s
  fresh h := .inr h
  before := m
  before' := m'

/-- What is apart from the scopes that have been touched corresponds to itself. -/
theorem Store.Touched.machines (h : m.store.Touched a m'.store) (hwhole : m.store.Whole)
    (hb : b < m.store.scopes.size) (hapart : m.store.Apart a b) (hdepth : m'.depth = m.depth) :
    (Shift.reached b m m').Machines m m' := by
  have hsize := h.size_le
  have hgap : m'.store.scopes.size =
      m.store.scopes.size + (m'.store.scopes.size - m.store.scopes.size) := by omega
  have hold : ∀ s, m.store.Reachable b s → s < m.store.scopes.size ∧ ¬m.store.Reachable a s :=
    fun s hs => ⟨hwhole.lt_size hb hs, fun ha => hapart s ha hs⟩
  -- scopes from before keep their numbers, and so do the values that are bound there
  have hscope : ∀ s, s < m.store.scopes.size → (Shift.reached b m m').scope s = s :=
    fun s hs => if_pos hs
  have hvalue : ∀ s x, (m.store.binding? s x).map (Shift.reached b m m').value =
      m.store.binding? s x := by
    intro s x
    cases hbinding : m.store.binding? s x with
    | none => rfl
    | some v =>
      rcases v with y | t | t | c | t
      case function.closure =>
        have hc := hscope c.scope (hwhole _ _ (.captured hbinding))
        show some (Value.function (.closure { c with scope := _ })) = _
        rw [hc]
      all_goals rfl
  -- later ones are on neither machine yet
  have hlater : ∀ s, m.store.scopes.size ≤ s →
      m'.store.scopes.size ≤ (Shift.reached b m m').scope s := by
    intro s hs
    have hnew : (Shift.reached b m m').scope s =
        s + (m'.store.scopes.size - m.store.scopes.size) := if_neg (Nat.not_lt_of_le hs)
    rw [hnew]
    omega
  refine ⟨⟨Nat.le_refl _, hgap, (Region.encloses_reached m.store b).closed, ?_, ?_⟩, ?_, hdepth⟩
  · rintro s (hs | hs)
    · obtain ⟨hlt, -⟩ := hold s hs
      rw [hscope s hlt, h.parent?_eq s hlt]
      cases hparent : m.store.parent? s with
      | none => rfl
      | some outer =>
        have houter := hscope outer (Nat.lt_trans (parent?_lt hparent) hlt)
        rw [Option.map_some, houter]
    · rw [parent?_of_size_le (hlater s hs), parent?_of_size_le hs]
      rfl
  · rintro s x (hs | hs)
    · obtain ⟨hlt, hout⟩ := hold s hs
      rw [hscope s hlt, hvalue, h.unchanged s hlt hout]
    · rw [binding?_eq_none (not_binds_of_size_le (hlater s hs)),
        binding?_eq_none (not_binds_of_size_le hs)]
      rfl
  · exact ⟨⟨"", String.append_empty.symm, String.append_empty.symm⟩,
      ⟨#[], Array.append_empty.symm, Array.append_empty.symm⟩⟩

theorem Store.Touched.spared (h : m.store.Touched a m'.store) (hwhole : m.store.Whole)
    (hb : b < m.store.scopes.size) (hapart : m.store.Apart a b) (hdepth : m'.depth = m.depth)
    (ctx : Context) : Spared ctx b m m' where
  reachable_iff s := h.reachable_iff hwhole hb hapart
  parent?_eq s hs := h.parent?_eq s (hwhole.lt_size hb hs)
  binding?_eq s hs := h.unchanged s (hwhole.lt_size hb hs) fun ha => hapart s ha hs
  endAlike fuel e := by
    have hmachines := h.machines hwhole hb hapart hdepth
    have hmem : (Shift.reached b m m').Mem b := .inl .refl
    have hagrees := Shift.imitates_eval ctx fuel e b hmem m m' hmachines
    rw [show (Shift.reached b m m').scope b = b from if_pos hb] at hagrees
    generalize eval ctx fuel e b m = o at hagrees
    generalize eval ctx fuel e b m' = o' at hagrees
    cases hagrees with
    | @done v _ _ _ hv hm =>
      obtain ⟨-, rfl⟩ := hv
      exact .done (Shift.resembles_value v) hm.output
    | failed hm => exact .failed hm.output
    | unfinished => exact .unfinished

/-- Evaluation in a scope changes no bindings but those that can be reached from there. It moves no
scope and removes no binding, and its value and the scopes that it makes lead to nothing that could
not be reached before and is not new. So what is apart from the scope stays apart and as it is, and
evaluation there goes on as if nothing had happened. -/
theorem eval_touches_reachable (ctx : Context) (fuel : Nat) (e : Code) (a : ScopeId) (m : Machine) :
    (eval ctx fuel e a m).Keeps (fun m m' => m.store.Touched a m'.store)
      (fun m' v => ∀ s, m'.store.ReachableFrom v s →
        m.store.Reachable a s ∨ m.store.scopes.size ≤ s) m ∧
    ∀ b, m.store.Whole → a < m.store.scopes.size → b < m.store.scopes.size →
      m.store.Apart a b →
      (eval ctx fuel e a m).Keeps
        (fun m m' => Spared ctx b m m' ∧ m'.store.Whole ∧ m'.store.Apart a b ∧
          ∀ s, m.store.scopes.size ≤ s → m'.store.Apart s b)
        (fun m' v => ∀ s, m'.store.ReachableFrom v s → ¬m'.store.Reachable b s) m := by
  have htouched := keeps_touched ctx fuel e a m
  refine ⟨htouched.imp (fun _ h => h.1) fun _ _ _ h => h, fun b hwhole ha hb hapart => ?_⟩
  have hwhole' := keeps_whole ctx fuel e ha hwhole
  cases heval : eval ctx fuel e a m with
  | unfinished => trivial
  | failed error m' =>
    rw [heval] at htouched hwhole'
    obtain ⟨h, hdepth⟩ := htouched
    exact ⟨h.spared hwhole hb hapart hdepth ctx, hwhole', h.apart hwhole hb hapart,
      fun s hs t => h.not_reachable hwhole hb hapart (.inr hs)⟩
  | done v m' =>
    rw [heval] at htouched hwhole'
    obtain ⟨⟨h, hdepth⟩, hv⟩ := htouched
    refine ⟨⟨h.spared hwhole hb hapart hdepth ctx, hwhole'.1, h.apart hwhole hb hapart,
      fun s hs t => h.not_reachable hwhole hb hapart (.inr hs)⟩, fun s hs hbs => ?_⟩
    have hbefore := (h.reachable_iff hwhole hb hapart).mp hbs
    rcases hv s hs with has | hnew
    · exact hapart s has hbefore
    · exact absurd (hwhole.lt_size hb hbefore) (Nat.not_lt_of_le hnew)

/-- The links of an interpreter lead to scopes that are there. -/
theorem Interpreter.Session.whole {i : Interpreter} {codes : List Code}
    (h : Interpreter.Session i codes) : i.machine.store.Whole := by
  intro s t hlink
  cases hlink with
  | parent hparent => exact Nat.lt_trans (parent?_lt hparent) (lt_size_of_parent? hparent)
  | captured hbinding =>
    obtain ⟨around, span, -, hshaped⟩ := h.ready.sound.fits _ _ _ hbinding
    exact hshaped.lt_size

end

/-- Two roots, neither of which binds anything. -/
def twoRoots : Machine := ⟨⟨#[⟨∅, none⟩, ⟨∅, none⟩]⟩, .buffer "", #[], 0⟩

theorem not_link_twoRoots (s t : ScopeId) : ¬twoRoots.store.Link s t := by
  rintro (hparent | hbinding)
  · rcases s with _ | _ | s <;> simp [twoRoots, parent?] at hparent
  · rcases s with _ | _ | s <;> simp [twoRoots, binding?] at hbinding

/-- A function is bound to a name in one of two roots. In the other root the name is still
missing. -/
theorem eval_touches_reachable_twoRoots :
    twoRoots.store.Whole ∧ twoRoots.store.Apart 0 1 ∧
    ∃ v m', eval ⟨.fresh, 1⟩ 2 (.assign .dummy ⟨7⟩ (.lambda .dummy 0 [] (.var .dummy ⟨7⟩))) 0
        twoRoots = .done v m' ∧
      m'.store.Binds 0 ⟨7⟩ ∧ m'.store.Apart 0 1 ∧
      EndAlike twoRoots m' (.failed ⟨.undefinedVariable "", some .dummy⟩ twoRoots)
        (eval ⟨.fresh, 1⟩ 1 (.var .dummy ⟨7⟩) 1 m') := by
  have hwhole : twoRoots.store.Whole := fun s t hlink => (not_link_twoRoots s t hlink).elim
  have hapart : twoRoots.store.Apart 0 1 := by
    have halone : ∀ s t, twoRoots.store.Reachable s t → t = s := by
      intro s t hreach
      rcases hreach with _ | ⟨_, hlink⟩
      · rfl
      · exact (not_link_twoRoots _ _ hlink).elim
    intro s hzero hone
    have hsame : (0 : ScopeId) = 1 := (halone 0 s hzero).symm.trans (halone 1 s hone)
    contradiction
  let f : Value := .function (.closure ⟨0, [], .var .dummy ⟨7⟩, 0⟩)
  have heval : eval ⟨.fresh, 1⟩ 2 (.assign .dummy ⟨7⟩ (.lambda .dummy 0 [] (.var .dummy ⟨7⟩))) 0
      twoRoots = .done f (twoRoots.define 0 ⟨7⟩ f) := by
    with_unfolding_all rfl
  have hmissing : eval ⟨.fresh, 1⟩ 1 (.var .dummy ⟨7⟩) 1 twoRoots =
      .failed ⟨.undefinedVariable "", some .dummy⟩ twoRoots := by
    with_unfolding_all rfl
  have hbinds : (twoRoots.define 0 ⟨7⟩ f).store.Binds 0 ⟨7⟩ :=
    (binds_define 0 ⟨7⟩).mpr (.inr ⟨rfl, rfl, by decide⟩)
  have hkeeps := (eval_touches_reachable ⟨.fresh, 1⟩ 2
    (.assign .dummy ⟨7⟩ (.lambda .dummy 0 [] (.var .dummy ⟨7⟩))) 0 twoRoots).2 1 hwhole
    (by decide) (by decide) hapart
  obtain ⟨⟨hspared, -, hstill, -⟩, -⟩ := hkeeps.of_done heval
  have hlater := hspared.endAlike 1 (.var .dummy ⟨7⟩)
  rw [hmissing] at hlater
  exact ⟨hwhole, hapart, f, _, heval, hbinds, hstill, hlater⟩

end LambdaScript
