import LambdaScript.Proofs.Nesting
import LambdaScript.Proofs.Output
import LambdaScript.Proofs.Renaming
/-!
# One run follows another

A `Translation` compares the evaluation of a program with that of the same program under other names
and spans, a higher limit of nested calls, and more fuel. The second evaluation does what the first
one does (`Translation.follows_eval`), with two exceptions: where the first one stops because of its
limit the second one may go on, and then only adds to the output; and where the first one has no
fuel left the second one may have some.

The machines of the two correspond scope by scope (`Translation.Machines`). For each construct there
is one lemma which says that it keeps the correspondence.
-/

namespace LambdaScript

/-- How the second of two evaluations differs from the first one. -/
structure Translation (ctx ctx' : Context) extends Renaming where
  injective : Function.Injective name
  respells : toRenaming.Respells ctx.names ctx'.names
  limit_le : ctx.limit ≤ ctx'.limit
  /-- The fuel that the second evaluation has on top. -/
  extra : Nat

namespace Translation

variable {ctx ctx' : Context} (T : Translation ctx ctx')

/-- Stores with the same scopes, which bind names to values that correspond. -/
structure Stores (store store' : Store) : Prop where
  size : store'.scopes.size = store.scopes.size
  parent : ∀ scope, store'.parent? scope = store.parent? scope
  binding : ∀ scope x, store'.binding? scope (T.name x) = (store.binding? scope x).map T.value

/-- Machines that correspond, and have done the same. -/
structure Machines (m m' : Machine) : Prop where
  store : T.Stores m.store m'.store
  console : m'.console = m.console
  writes : m'.writes = m.writes
  depth : m'.depth = m.depth

/-- How two evaluations end, where `h` translates values. -/
inductive Follows {α β : Type} (h : α → β) :
    Outcome RuntimeError Machine α → Outcome RuntimeError Machine β → Prop where
  | done {a m m'} (hm : T.Machines m m') : Follows h (.done a m) (.done (h a) m')
  | failed {e m m'} (hm : T.Machines m m') : Follows h (.failed e m) (.failed (T.error e) m')
  /-- Only the first evaluation is stopped by its limit. -/
  | overflowed {e m o} (hlimit : ctx.limit < ctx'.limit)
      (hfault : e.fault = .stackOverflow ctx.limit) (ho : o.Extends m) : Follows h (.failed e m) o
  | unfinished : Follows h .unfinished .unfinished
  | more {o} (hextra : 0 < T.extra) : Follows h .unfinished o

/-- The second computation follows the first one on all machines that correspond. -/
def Imitates {α β : Type} (h : α → β) (x : Eval α) (x' : Eval β) : Prop :=
  ∀ m m', T.Machines m m' → T.Follows h (x m) (x' m')

variable {T}

/-! ## Stores -/

namespace Stores

variable {store store' : Store} (hs : T.Stores store store')
include hs

theorem lookup (scope : ScopeId) (x : Name) :
    store'.lookup scope (T.name x) = store.lookup scope x := by
  -- both go outwards until the name is bound
  fun_induction Store.lookup store scope x with
  | case1 scope value hvalue =>
    apply Store.lookup_of_binds
    rw [Store.Binds, hs.binding, hvalue]
    rfl
  | case2 scope hnone outer hparent ih =>
    rw [← ih]
    refine Store.lookup_of_parent ?_ ((hs.parent scope).trans hparent)
    rw [Store.Binds, hs.binding, hnone]
    simp
  | case3 scope hnone hparent =>
    refine Store.lookup_of_root ?_ ((hs.parent scope).trans hparent)
    rw [Store.Binds, hs.binding, hnone]
    simp

theorem get (scope : ScopeId) (x : Name) :
    store'.get scope (T.name x) = (store.get scope x).map T.value := by
  rw [Store.get_eq_lookup, Store.get_eq_lookup, hs.lookup]
  cases store.lookup scope x with
  | none => rfl
  | some found => exact hs.binding found x

theorem target? (scope : ScopeId) (x : Name) :
    store'.target? scope (T.name x) = store.target? scope x := by
  rw [Store.target?, Store.target?, Store.isRoot, Store.isRoot, hs.lookup, hs.parent]

theorem define (scope : ScopeId) (x : Name) (value : Value) :
    T.Stores (store.define scope x value) (store'.define scope (T.name x) (T.value value)) where
  size := by rw [Store.size_define, Store.size_define, hs.size]
  parent found := by rw [Store.parent?_define, Store.parent?_define, hs.parent]
  binding found y := by
    rw [Store.binding?_define, Store.binding?_define, hs.binding, hs.size]
    simp only [T.injective.eq_iff]
    split <;> rfl

theorem extend (outer : ScopeId) : T.Stores (store.extend outer).2 (store'.extend outer).2 where
  size := by rw [Store.size_extend, Store.size_extend, hs.size]
  parent found := by rw [Store.parent?_extend, Store.parent?_extend, hs.size, hs.parent]
  binding found x := by rw [Store.binding?_extend, Store.binding?_extend, hs.binding]

end Stores

theorem Stores.bindParams {store store' : Store} (hs : T.Stores store store') (scope : ScopeId)
    (params : List Name) (args : List Value) : T.Stores (bindParams store scope params args)
      (bindParams store' scope (params.map T.name) (args.map T.value)) := by
  fun_induction LambdaScript.bindParams store scope params args generalizing store' with
  | case1 => exact hs
  | case2 store param params ih => exact ih (hs.define scope param (.bool false))
  | case3 store param params arg args ih => exact ih (hs.define scope param arg)

/-! ## Ways to put computations together -/

section
variable {α β γ δ : Type} {h : α → β} {k : γ → δ}

theorem imitates_pure (a : α) : T.Imitates h (pure a) (pure (h a)) := fun _ _ hm => .done hm

theorem imitates_fault (f : RuntimeFault) : T.Imitates h (Eval.fault f) (Eval.fault f) :=
  fun _ _ hm => .failed hm

theorem imitates_outOfFuel {x' : Eval β} (hx : T.extra = 0 → x' = Run.outOfFuel) :
    T.Imitates h Run.outOfFuel x' := by
  intro m m' _
  by_cases hextra : T.extra = 0
  · rw [hx hextra]
    exact .unfinished
  · exact .more (Nat.pos_of_ne_zero hextra)

theorem imitates_bind {x : Eval α} {x' : Eval β} {f : α → Eval γ} {f' : β → Eval δ}
    (hx : T.Imitates h x x') (hf : ∀ a, T.Imitates k (f a) (f' (h a)))
    (hgrows : ∀ b, (f' b).Grows) : T.Imitates k (x >>= f) (x' >>= f') := by
  intro m m' hm
  have hfirst := hx m m' hm
  have hextends : ∀ {m₀}, (x' m').Extends m₀ → ((x' >>= f') m').Extends m₀ :=
    fun ho => Eval.extends_bind ho hgrows
  rw [Run.bind_apply, Run.bind_apply] at *
  generalize x m = o at hfirst
  generalize x' m' = o' at hfirst hextends
  cases hfirst with
  | done hm => exact hf _ _ _ hm
  | failed hm => exact .failed hm
  | overflowed hlimit hfault ho => exact .overflowed hlimit hfault (hextends ho)
  | unfinished => exact .unfinished
  | more hextra => exact .more hextra

theorem imitates_ite {p : Prop} [Decidable p] {x y : Eval α} {x' y' : Eval β}
    (hx : T.Imitates h x x') (hy : T.Imitates h y y') :
    T.Imitates h (if p then x else y) (if p then x' else y') := by
  split
  · exact hx
  · exact hy

theorem imitates_ofExcept {r : Except RuntimeFault α} :
    T.Imitates h (Eval.ofExcept r) (Eval.ofExcept (r.map h)) := by
  cases r with
  | ok a => exact imitates_pure a
  | error f => exact imitates_fault f

theorem imitates_deeper {x : Eval α} {x' : Eval β} (hx : T.Imitates h x x') :
    T.Imitates h x.deeper x'.deeper := by
  intro m m' hm
  have hinner := hx m.enter m'.enter
    ⟨hm.store, hm.console, hm.writes, congrArg (· + 1) hm.depth⟩
  have hextends : ∀ {m₀}, (x' m'.enter).Extends m₀ → (x'.deeper m').Extends m₀ :=
    fun ho => Eval.extends_deeper ho
  rw [Eval.deeper, Eval.deeper] at *
  generalize x m.enter = o at hinner
  generalize x' m'.enter = o' at hinner hextends
  have hleave : ∀ {m m'}, T.Machines m m' → T.Machines m.leave m'.leave :=
    fun hm => ⟨hm.store, hm.console, hm.writes, congrArg (· - 1) hm.depth⟩
  cases hinner with
  | done hm => exact .done (hleave hm)
  | failed hm => exact .failed (hleave hm)
  | @overflowed e m₁ o hlimit hfault ho =>
    refine .overflowed hlimit hfault ?_
    have houtput : m₁.leave.OutputLe m₁ := .of_eq rfl rfl
    exact .trans houtput (hextends ho)
  | unfinished => exact .unfinished
  | more hextra => exact .more hextra

theorem imitates_located {x : Eval α} {x' : Eval β} (s : Span) (hx : T.Imitates h x x') :
    T.Imitates h (Run.mapError (·.located s) x) (Run.mapError (·.located (T.span s)) x') := by
  intro m m' hm
  have hinner := hx m m' hm
  have hextends : ∀ {m₀}, (x' m').Extends m₀ →
      (Run.mapError (·.located (T.span s)) x' m').Extends m₀ :=
    fun ho => Eval.extends_mapError _ ho
  rw [Run.mapError, Run.mapError] at *
  generalize x m = o at hinner
  generalize x' m' = o' at hinner hextends
  cases hinner with
  | done hm => exact .done hm
  | @failed e m m' hm =>
    have hfollows := Follows.failed (h := h) (e := e.located s) hm
    rw [T.error_located] at hfollows
    exact hfollows
  | overflowed hlimit hfault ho => exact .overflowed hlimit hfault (hextends ho)
  | unfinished => exact .unfinished
  | more hextra => exact .more hextra

end

/-! ## Variables and calls -/

theorem imitates_readVariable (scope : ScopeId) (x : Name) :
    T.Imitates T.value (readVariable ctx scope x) (readVariable ctx' scope (T.name x)) := by
  intro m m' hm
  rw [readVariable, readVariable, hm.store.get, T.respells]
  cases m.store.get scope x with
  | some value => exact .done hm
  | none => exact .failed hm

theorem imitates_setVariable (scope : ScopeId) (x : Name) (value : Value) :
    T.Imitates T.value (setVariable ctx scope x value)
      (setVariable ctx' scope (T.name x) (T.value value)) := by
  intro m m' hm
  rw [setVariable, setVariable, hm.store.target?, T.respells]
  cases m.store.target? scope x with
  | some found => exact .done ⟨hm.store.define found x value, hm.console, hm.writes, hm.depth⟩
  | none => exact .failed hm

theorem imitates_enterScope (c : Closure) (args : List Value) :
    T.Imitates id (enterScope c args)
      (enterScope (T.closure c) (args.map T.value)) := by
  intro m m' hm
  have hscope : (m'.store.extend c.scope).1 = (m.store.extend c.scope).1 := hm.store.size
  have hentered : T.Stores (entered m.store c args)
      (entered m'.store (T.closure c) (args.map T.value)) := by
    have hextend := hm.store.extend c.scope
    rw [entered, entered, show (T.closure c).scope = c.scope from rfl, hscope]
    exact hextend.bindParams _ c.params args
  rw [enterScope_apply, enterScope_apply, show (T.closure c).scope = c.scope from rfl, hscope]
  exact .done ⟨hentered, hm.console, hm.writes, hm.depth⟩

theorem Machines.printLine {m m' : Machine} (hm : T.Machines m m') (line : String) :
    T.Machines (m.printLine line) (m'.printLine line) :=
  ⟨hm.store, congrArg (Console.printLine line) hm.console, hm.writes, hm.depth⟩

theorem Machines.writeFile {m m' : Machine} (hm : T.Machines m m') (path contents : String) :
    T.Machines (m.writeFile path contents) (m'.writeFile path contents) :=
  ⟨hm.store, hm.console, congrArg (Array.push · _) hm.writes, hm.depth⟩

variable (T) in
/-- The first argument, or `false`, is shown alike. -/
theorem display_headD (args : List Value) :
    ((args.map T.value).headD (.bool false)).display ctx'.names =
      (args.headD (.bool false)).display ctx.names := by
  cases args with
  | nil => rfl
  | cons v args => exact Renaming.display_value T.respells v

theorem imitates_callBuiltin (b : Builtin) (args : List Value) :
    T.Imitates T.value (callBuiltin ctx b args) (callBuiltin ctx' b (args.map T.value)) := by
  cases b with
  | print =>
    intro m m' hm
    have hprint := hm.printLine ((args.headD (.bool false)).display ctx.names)
    rw [callBuiltin, callBuiltin, T.display_headD]
    exact .done hprint
  | write =>
    intro m m' hm
    have hwrite := hm.writeFile ((args.headD (.bool false)).display ctx.names)
      ((args.tail.headD (.bool false)).display ctx.names)
    rw [callBuiltin, callBuiltin, ← List.map_tail, T.display_headD, T.display_headD]
    exact .done hwrite
  | length =>
    rw [callBuiltin, callBuiltin]
    rcases args with _ | ⟨x | s | b | c | b, args⟩
    case cons.string => exact imitates_pure _
    all_goals exact imitates_fault _

theorem callClosure_apply (ctx : Context) (sub : Evaluator) (c : Closure) (args : List Value)
    (m : Machine) : callClosure ctx sub c args m =
      if ctx.limit ≤ m.depth then .failed (.ofFault (.stackOverflow ctx.limit)) m
      else (enterScope c args >>= fun inner => (sub c.body inner).deeper) m := by
  rw [callClosure, Run.bind_apply]
  simp only [Run.get]
  split <;> rfl

/-! ## Evaluation -/

section
variable {sub sub' : Evaluator}
  (hsub : ∀ e scope, T.Imitates T.value (sub e scope) (sub' (T.expr e) scope))
  (hgrows : sub'.Grows)
include hsub hgrows

/-- The limit makes a difference only here. -/
theorem imitates_callClosure (c : Closure) (args : List Value) :
    T.Imitates T.value (callClosure ctx sub c args)
      (callClosure ctx' sub' (T.closure c) (args.map T.value)) := by
  intro m m' hm
  have hbody := imitates_bind (imitates_enterScope c args)
    (fun inner => imitates_deeper (hsub c.body inner))
    (fun inner => Eval.grows_deeper (hgrows (T.expr c.body) inner))
  -- where only the first one is stopped, the second one goes on from the same output
  have hgoes := grows_callClosure hgrows ctx' (T.closure c) (args.map T.value) m'
  have hlimit := T.limit_le
  rw [callClosure_apply, hm.depth] at hgoes
  rw [callClosure_apply, callClosure_apply, hm.depth]
  by_cases hdepth : ctx.limit ≤ m.depth
  · rw [if_pos hdepth]
    by_cases hless : ctx.limit < ctx'.limit
    · have houtput : m.OutputLe m' := .of_eq hm.console hm.writes
      exact .overflowed hless rfl (.trans houtput hgoes)
    · have heq : ctx'.limit = ctx.limit := by omega
      rw [heq, if_pos hdepth]
      exact .failed hm
  · rw [if_neg hdepth, if_neg (by omega)]
    exact hbody m m' hm

theorem imitates_callValue (f : Value) (args : List Value) :
    T.Imitates T.value (callValue ctx sub f args)
      (callValue ctx' sub' (T.value f) (args.map T.value)) := by
  rcases f with x | s | b | c | b
  case function.closure => exact imitates_callClosure hsub hgrows c args
  case function.builtin => exact imitates_callBuiltin b args
  all_goals exact imitates_fault _

theorem imitates_evalBinary (scope : ScopeId) (op : BinaryOp) (left right : Code) :
    T.Imitates T.value (evalBinary sub scope op left right)
      (evalBinary sub' scope op (T.expr left) (T.expr right)) := by
  refine imitates_bind (hsub left scope) (fun a => ?_) fun a => Eval.grows_ite (Eval.grows_pure _)
    (Eval.grows_bind (hgrows _ scope) fun _ => Eval.grows_ofExcept _)
  have hdecides : decides op (T.value a) = decides op a := by
    rw [decides, decides, T.isFalse_value]
  rw [hdecides]
  refine imitates_ite (imitates_pure a) (imitates_bind (hsub right scope) (fun b => ?_)
    fun _ => Eval.grows_ofExcept _)
  rw [T.binary_value]
  exact imitates_ofExcept

theorem imitates_evalSeq (scope : ScopeId) (items : List Code) (last : Value) :
    T.Imitates T.value (evalSeq sub scope last items)
      (evalSeq sub' scope (T.value last) (T.exprs items)) := by
  induction items generalizing last with
  | nil => exact imitates_pure last
  | cons item items ih =>
    exact imitates_bind (hsub item scope) (fun value => ih value)
      fun value => grows_evalSeq hgrows scope _ value

theorem imitates_evalArgs (scope : ScopeId) (args : List Code) (before : List Value) :
    T.Imitates (List.map T.value) (evalArgs sub scope before args)
      (evalArgs sub' scope (before.map T.value) (T.exprs args)) := by
  induction args generalizing before with
  | nil =>
    rw [evalArgs, Renaming.exprs, evalArgs, ← List.map_reverse]
    exact imitates_pure _
  | cons arg args ih =>
    exact imitates_bind (hsub arg scope) (fun value => ih (value :: before))
      fun value => grows_evalArgs hgrows scope _ _

theorem imitates_evalLoop (scope : ScopeId) (condition body : Code) (fuel : Nat) (last : Value) :
    T.Imitates T.value (evalLoop sub scope condition body fuel last)
      (evalLoop sub' scope (T.expr condition) (T.expr body) (fuel + T.extra) (T.value last)) := by
  induction fuel generalizing last with
  | zero => exact imitates_outOfFuel fun h => by rw [h]; rfl
  | succ fuel ih =>
    have hround : ∀ fuel value,
        (evalLoop sub' scope (T.expr condition) (T.expr body) fuel value).Grows :=
      fun fuel value => grows_evalLoop hgrows scope _ _ fuel value
    rw [Nat.succ_add]
    refine imitates_bind (hsub condition scope) (fun test => ?_) fun test =>
      Eval.grows_ite (Eval.grows_pure _) (Eval.grows_bind (hgrows _ scope) fun _ => hround _ _)
    rw [T.isFalse_value]
    exact imitates_ite (imitates_pure last)
      (imitates_bind (hsub body scope) (fun value => ih value) fun _ => hround _ _)

theorem imitates_evalCall (scope : ScopeId) (callee : Code) (args : List Code) :
    T.Imitates T.value (evalCall ctx sub scope callee args)
      (evalCall ctx' sub' scope (T.expr callee) (T.exprs args)) := by
  have hcall : ∀ f values, (callValue ctx' sub' f values).Grows :=
    fun f values => grows_callValue hgrows ctx' f values
  refine imitates_bind (hsub callee scope) (fun f => ?_) fun f =>
    Eval.grows_bind (grows_evalArgs hgrows scope _ []) (hcall f)
  exact imitates_bind (imitates_evalArgs hsub hgrows scope args [])
    (fun values => imitates_callValue hsub hgrows f values) (hcall _)

theorem imitates_evalNode (scope : ScopeId) (fuel : Nat) (e : Code) :
    T.Imitates T.value (evalNode ctx sub fuel scope e)
      (evalNode ctx' sub' (fuel + T.extra) scope (T.expr e)) := by
  cases e with
  | number s x => exact imitates_pure _
  | string s contents =>
    rw [Renaming.expr, evalNode, evalNode, T.respells]
    exact imitates_pure _
  | bool s b => exact imitates_pure _
  | lambda s label params body => exact imitates_pure _
  | var s x => exact imitates_readVariable scope x
  | assign s x value =>
    exact imitates_bind (hsub value scope) (fun v => imitates_setVariable scope x v)
      fun v => grows_setVariable ctx' scope _ v
  | binary s op left right => exact imitates_evalBinary hsub hgrows scope op left right
  | ifThen s condition thenBranch =>
    refine imitates_bind (hsub condition scope) (fun test => ?_) fun test =>
      Eval.grows_ite (Eval.grows_pure _) (hgrows _ scope)
    rw [T.isFalse_value]
    exact imitates_ite (imitates_pure _) (hsub thenBranch scope)
  | ifElse s condition thenBranch elseBranch =>
    refine imitates_bind (hsub condition scope) (fun test => ?_) fun test =>
      Eval.grows_ite (hgrows _ scope) (hgrows _ scope)
    rw [T.isFalse_value]
    exact imitates_ite (hsub elseBranch scope) (hsub thenBranch scope)
  | loop s condition body => exact imitates_evalLoop hsub hgrows scope condition body fuel _
  | seq s items => exact imitates_evalSeq hsub hgrows scope items _
  | call s callee args => exact imitates_evalCall hsub hgrows scope callee args

end

/-- The second evaluation of an expression follows the first one. -/
theorem imitates_eval (fuel : Nat) (e : Code) (scope : ScopeId) :
    T.Imitates T.value (eval ctx fuel e scope) (eval ctx' (fuel + T.extra) (T.expr e) scope) := by
  induction fuel generalizing e scope with
  | zero => exact imitates_outOfFuel fun h => by rw [h]; rfl
  | succ fuel ih =>
    have hnode := imitates_evalNode ih (grows_eval ctx' _) scope fuel e
    have hlocated := imitates_located e.span hnode
    rw [← Renaming.span_expr] at hlocated
    rw [Nat.succ_add]
    exact hlocated

end Translation
end LambdaScript
