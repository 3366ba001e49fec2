import LambdaScript.Proofs.Renumbering
import LambdaScript.Proofs.ReboundScopes
/-!
# Names of parameters do not matter

Two trees that are the same but for the names of parameters are run alike
(`Rebinding.alike_eval`): machines that correspond in a world correspond in a later one when both
are done, and both have printed and written the same values. So a parameter can be renamed, if the
new name does not occur in the program: the program runs as before, and only where a function is
shown its list of parameters may be another one (`bound_names_irrelevant`).
-/

namespace LambdaScript

open Interpreter

/-! ## What is shown -/

/-- The same value, or closures made by one lambda node in one scope, with parameters that may be
shown for each other. -/
inductive Value.UpTo (Shown : List Name → List Name → Prop) : Value → Value → Prop where
  | same (v : Value) : UpTo Shown v v
  | closure {c c' : Closure} (hsame : c.same c' = true) (hparams : Shown c.params c'.params) :
      UpTo Shown (.function (.closure c)) (.function (.closure c'))

/-- The same values were printed, one after the other, up to the parameters of functions. -/
inductive Console.UpTo (Shown : List Name → List Name → Prop) (names : Interner) :
    Console → Console → Prop where
  | same (c : Console) : UpTo Shown names c c
  | printLine {c c' : Console} {v v' : Value} (h : UpTo Shown names c c') (hv : v.UpTo Shown v') :
      UpTo Shown names (c.printLine (v.display names)) (c'.printLine (v'.display names))

/-- The same values were written, up to the parameters of functions. -/
inductive FileWrite.UpTo (Shown : List Name → List Name → Prop) (names : Interner) :
    FileWrite → FileWrite → Prop where
  | mk {path path' contents contents' : Value} (hpath : path.UpTo Shown path')
      (hcontents : contents.UpTo Shown contents') :
      UpTo Shown names ⟨path.display names, contents.display names⟩
        ⟨path'.display names, contents'.display names⟩

/-- Two runs leave the same behind, up to the parameters of functions that were shown. -/
structure Aftermath.UpTo (Shown : List Name → List Name → Prop) (a a' : Aftermath) : Prop where
  names : a'.names = a.names
  console : a.console.UpTo Shown a.names a'.console
  writes : List.Forall₂ (FileWrite.UpTo Shown a.names) a.writes.toList a'.writes.toList

/-- Two runs end alike: in the same value, up to the parameters of functions, or in the same error;
or neither ends. -/
inductive Outcome.UpTo (Shown : List Name → List Name → Prop) :
    Outcome RunError Aftermath Value → Outcome RunError Aftermath Value → Prop where
  | done {v v' : Value} {a a' : Aftermath} (hv : v.UpTo Shown v') (ha : a.UpTo Shown a') :
      UpTo Shown (.done v a) (.done v' a')
  | failed {e : RunError} {a a' : Aftermath} (ha : a.UpTo Shown a') :
      UpTo Shown (.failed e a) (.failed e a')
  | unfinished : UpTo Shown .unfinished .unfinished

variable {Shown : List Name → List Name → Prop}

theorem Value.Rebound.upTo {w : World} {v v' : Value} (h : v.Rebound Shown w v') :
    v.UpTo Shown v' := by
  cases h with
  | number | string | bool | builtin => exact .same _
  | closure b _ hshown _ =>
    refine .closure ?_ hshown
    simp only [Closure.same, beq_self_eq_true, Bool.and_self]

/-! ## Machines -/

/-- Machines that correspond in a world. -/
structure Machine.Rebound (Shown : List Name → List Name → Prop) (names : Interner) (w : World)
    (m m' : Machine) : Prop where
  store : m.store.Rebound Shown w m'.store
  console : m.console.UpTo Shown names m'.console
  writes : List.Forall₂ (FileWrite.UpTo Shown names) m.writes.toList m'.writes.toList
  depth : m'.depth = m.depth

namespace Rebinding

variable {names : Interner} {w w' : World} {m m' : Machine}

/-- Two evaluations end alike: in a later world, with results that are related there or with the
same error. -/
inductive Agrees (Shown : List Name → List Name → Prop) (names : Interner) (w : World) {α β : Type}
    (R : World → α → β → Prop) :
    Outcome RuntimeError Machine α → Outcome RuntimeError Machine β → Prop where
  | done {later a b m m'} (hw : w <+: later) (h : R later a b)
      (hm : Machine.Rebound Shown names later m m') :
      Agrees Shown names w R (.done a m) (.done b m')
  | failed {later e m m'} (hw : w <+: later) (hm : Machine.Rebound Shown names later m m') :
      Agrees Shown names w R (.failed e m) (.failed e m')
  | unfinished : Agrees Shown names w R .unfinished .unfinished

/-- The two computations end alike, now and in all later worlds. -/
def Imitates (Shown : List Name → List Name → Prop) (names : Interner) (w : World) {α β : Type}
    (R : World → α → β → Prop) (x : Eval α) (x' : Eval β) : Prop :=
  ∀ later, w <+: later → ∀ m m', Machine.Rebound Shown names later m m' →
    Agrees Shown names later R (x m) (x' m')

/-- Computations of values that correspond. -/
abbrev Alike (Shown : List Name → List Name → Prop) (names : Interner) (w : World)
    (x x' : Eval Value) : Prop :=
  Imitates Shown names w (Value.Rebound Shown) x x'

/-! ## Ways to put computations together -/

section
variable {α β γ δ : Type} {R : World → α → β → Prop} {Q : World → γ → δ → Prop}

theorem Agrees.earlier {o : Outcome RuntimeError Machine α} {o' : Outcome RuntimeError Machine β}
    (hw : w <+: w') (h : Agrees Shown names w' R o o') : Agrees Shown names w R o o' := by
  cases h with
  | done hlater h hm => exact .done (hw.trans hlater) h hm
  | failed hlater hm => exact .failed (hw.trans hlater) hm
  | unfinished => exact .unfinished

theorem imitates_pure {a : α} {b : β} (h : ∀ later, w <+: later → R later a b) :
    Imitates Shown names w R (pure a) (pure b) :=
  fun later hw _ _ hm => .done (List.prefix_refl later) (h later hw) hm

theorem alike_pure {v v' : Value} (h : v.Rebound Shown w v') :
    Alike Shown names w (pure v) (pure v') :=
  imitates_pure fun _ hw => h.mono hw

theorem imitates_fault (f : RuntimeFault) :
    Imitates Shown names w R (Eval.fault f) (Eval.fault f) :=
  fun later _ _ _ hm => .failed (List.prefix_refl later) hm

theorem imitates_bind {x : Eval α} {x' : Eval β} {f : α → Eval γ} {f' : β → Eval δ}
    (hx : Imitates Shown names w R x x')
    (hf : ∀ later, w <+: later → ∀ a b, R later a b →
      Imitates Shown names later Q (f a) (f' b)) :
    Imitates Shown names w Q (x >>= f) (x' >>= f') := by
  intro now hnow m m' hm
  have hfirst := hx now hnow m m' hm
  rw [Run.bind_apply, Run.bind_apply]
  generalize x m = o at hfirst
  generalize x' m' = o' at hfirst
  cases hfirst with
  | done hw h hm =>
    exact (hf _ (hnow.trans hw) _ _ h _ (List.prefix_refl _) _ _ hm).earlier hw
  | failed hw hm => exact .failed hw hm
  | unfinished => exact .unfinished

theorem imitates_ite {p : Prop} [Decidable p] {x y : Eval α} {x' y' : Eval β}
    (hx : Imitates Shown names w R x x') (hy : Imitates Shown names w R y y') :
    Imitates Shown names w R (if p then x else y) (if p then x' else y') := by
  split
  · exact hx
  · exact hy

theorem imitates_deeper {x : Eval α} {x' : Eval β} (hx : Imitates Shown names w R x x') :
    Imitates Shown names w R x.deeper x'.deeper := by
  intro now hnow m m' hm
  have hinner := hx now hnow m.enter m'.enter
    ⟨hm.store, hm.console, hm.writes, congrArg (· + 1) hm.depth⟩
  have hleave : ∀ {later m m'}, Machine.Rebound Shown names later m m' →
      Machine.Rebound Shown names later m.leave m'.leave :=
    fun hm => ⟨hm.store, hm.console, hm.writes, congrArg (· - 1) hm.depth⟩
  rw [Eval.deeper, Eval.deeper]
  generalize x m.enter = o at hinner
  generalize x' m'.enter = o' at hinner
  cases hinner with
  | done hw h hm => exact .done hw h (hleave hm)
  | failed hw hm => exact .failed hw (hleave hm)
  | unfinished => exact .unfinished

theorem imitates_mapError {x : Eval α} {x' : Eval β} (f : RuntimeError → RuntimeError)
    (hx : Imitates Shown names w R x x') :
    Imitates Shown names w R (Run.mapError f x) (Run.mapError f x') := by
  intro now hnow m m' hm
  have hinner := hx now hnow m m' hm
  rw [Run.mapError, Run.mapError]
  generalize x m = o at hinner
  generalize x' m' = o' at hinner
  cases hinner with
  | done hw h hm => exact .done hw h hm
  | failed hw hm => exact .failed hw hm
  | unfinished => exact .unfinished

end

/-! ## Variables and calls -/

section
variable {ctx : Context} {s : ScopeId} {z z' : Name} {around : List Rebinding} {v v' : Value}
  {args args' : List Value}

theorem alike_readVariable (hscope : w[s]? = some around) (h : Means around z z') :
    Alike Shown ctx.names w (readVariable ctx s z) (readVariable ctx s z') := by
  intro now hnow m m' hm
  obtain ⟨hget, hnone⟩ := hm.store.get (World.getElem?_of_prefix hnow hscope) h
  rw [readVariable, readVariable]
  generalize hfound : m.store.get s z = o at hget hnone
  generalize m'.store.get s z' = o' at hget
  cases hget with
  | some hv => exact .done (List.prefix_refl now) hv hm
  | none =>
    obtain rfl := hnone rfl
    exact .failed (List.prefix_refl now) hm

theorem alike_setVariable (hscope : w[s]? = some around) (h : Means around z z')
    (hv : v.Rebound Shown w v') :
    Alike Shown ctx.names w (setVariable ctx s z v) (setVariable ctx s z' v') := by
  intro now hnow m m' hm
  obtain ⟨hsame, hfound, hnone⟩ := hm.store.target? (World.getElem?_of_prefix hnow hscope) h
  rw [setVariable, setVariable, hsame]
  cases htarget : m.store.target? s z with
  | some found =>
    obtain ⟨rfl, hbound⟩ := hfound found htarget
    exact .done (List.prefix_refl now) (hv.mono hnow)
      ⟨hm.store.define (hv.mono hnow) hbound, hm.console, hm.writes, hm.depth⟩
  | none =>
    obtain rfl := hnone htarget
    exact .failed (List.prefix_refl now) hm

/-- Lists of values that correspond. -/
abbrev Lists (Shown : List Name → List Name → Prop) (w : World) : List Value → List Value → Prop :=
  List.Forall₂ (Value.Rebound Shown w)

theorem Lists.mono (hw : w <+: w') (h : Lists Shown w args args') : Lists Shown w' args args' :=
  h.imp fun _ _ hv => hv.mono hw

theorem alike_callBuiltin (b : Builtin) (hargs : Lists Shown w args args') :
    Alike Shown ctx.names w (callBuiltin ctx b args) (callBuiltin ctx b args') := by
  cases b with
  | print =>
    intro now hnow m m' hm
    have hline := forall₂_headD hargs (.bool false)
    exact .done (List.prefix_refl now) (.bool false)
      ⟨hm.store, hm.console.printLine hline.upTo, hm.writes, hm.depth⟩
  | write =>
    intro now hnow m m' hm
    have hpath := forall₂_headD hargs (.bool false)
    have hcontents := forall₂_headD (forall₂_tail hargs) (.bool false)
    have hwrites := List.rel_append hm.writes (.cons (.mk hpath.upTo hcontents.upTo) .nil)
    refine .done (List.prefix_refl now) (.bool false) ⟨hm.store, hm.console, ?_, hm.depth⟩
    simpa [Machine.writeFile] using hwrites
  | length =>
    rw [callBuiltin, callBuiltin]
    cases hargs with
    | nil => exact imitates_fault _
    | cons hv _ =>
      cases hv with
      | string => exact alike_pure (.number _)
      | number | bool | builtin | closure => exact imitates_fault _

/-! ## Evaluation -/

variable {sub : Evaluator}
  (hsub : ∀ {w : World} {s : ScopeId} {around : List Rebinding} {e e' : Code},
    w[s]? = some around → Expr.Rebound Shown around e e' →
      Alike Shown ctx.names w (sub e s) (sub e' s))
include hsub

/-- The body of a closure is evaluated in a world with one scope more. -/
theorem alike_callClosure {b : Rebinding} {label : Nat} {body body' : Code}
    (hscope : w[s]? = some around) (hbody : Expr.Rebound Shown (b :: around) body body')
    (hargs : Lists Shown w args args') :
    Alike Shown ctx.names w (callClosure ctx sub ⟨label, b.params, body, s⟩ args)
      (callClosure ctx sub ⟨label, b.params.map b.perm, body', s⟩ args') := by
  intro now hnow m m' hm
  rw [Translation.callClosure_apply, Translation.callClosure_apply, hm.depth]
  split
  · exact .failed (List.prefix_refl now) hm
  have hscope' := World.getElem?_of_prefix hnow hscope
  have hentered := hm.store.entered b label body body' hscope' (hargs.mono hnow)
  have hgrows : now <+: now ++ [b :: around] := List.prefix_append now _
  have hnew : (now ++ [b :: around])[m.store.scopes.size]? = some (b :: around) := by
    rw [hm.store.length]
    exact List.getElem?_concat_length
  have hinner := imitates_deeper (hsub hnew hbody) _ (List.prefix_refl _)
    { m with store := entered m.store ⟨label, b.params, body, s⟩ args }
    { m' with store := entered m'.store ⟨label, b.params.map b.perm, body', s⟩ args' }
    ⟨hentered, hm.console, hm.writes, hm.depth⟩
  have hsame : (m'.store.extend s).1 = m.store.scopes.size := hm.store.size
  rw [Run.bind_apply, Run.bind_apply, enterScope_apply, enterScope_apply]
  simp only [hsame]
  exact hinner.earlier hgrows

theorem alike_callValue (hf : v.Rebound Shown w v') (hargs : Lists Shown w args args') :
    Alike Shown ctx.names w (callValue ctx sub v args) (callValue ctx sub v' args') := by
  cases hf with
  | closure b hscope _ hbody => exact alike_callClosure hsub hscope hbody hargs
  | builtin b => exact alike_callBuiltin b hargs
  | number | string | bool => exact imitates_fault _

theorem alike_evalBinary (hscope : w[s]? = some around) (op : BinaryOp)
    {left left' right right' : Code} (hleft : Expr.Rebound Shown around left left')
    (hright : Expr.Rebound Shown around right right') :
    Alike Shown ctx.names w (evalBinary sub s op left right)
      (evalBinary sub s op left' right') := by
  refine imitates_bind (hsub hscope hleft) fun now hnow a a' ha => ?_
  have hdecides : decides op a' = decides op a := by rw [decides, decides, ha.isFalse_eq]
  rw [hdecides]
  refine imitates_ite (alike_pure ha) ?_
  refine imitates_bind (hsub (World.getElem?_of_prefix hnow hscope) hright)
    fun later hlater b b' hb => ?_
  rcases (ha.mono hlater).binary op hb with ⟨fault, hop, hop'⟩ | ⟨c, c', hop, hop', hc⟩
  · rw [hop, hop']
    exact imitates_fault fault
  · rw [hop, hop']
    exact alike_pure hc

theorem alike_evalSeq (hscope : w[s]? = some around) {items items' : List Code}
    (hitems : Expr.ReboundAll Shown around items items') (hlast : v.Rebound Shown w v') :
    Alike Shown ctx.names w (evalSeq sub s v items) (evalSeq sub s v' items') := by
  induction items generalizing w items' v v' with
  | nil =>
    cases hitems with
    | nil => exact alike_pure hlast
  | cons item items ih =>
    cases hitems with
    | cons hitem hitems =>
      exact imitates_bind (hsub hscope hitem) fun now hnow u u' hu =>
        ih (World.getElem?_of_prefix hnow hscope) hitems hu

theorem imitates_evalArgs (hscope : w[s]? = some around) {es es' : List Code}
    (hes : Expr.ReboundAll Shown around es es') (hbefore : Lists Shown w args args') :
    Imitates Shown ctx.names w (Lists Shown) (evalArgs sub s args es)
      (evalArgs sub s args' es') := by
  induction es generalizing w es' args args' with
  | nil =>
    cases hes with
    | nil => exact imitates_pure fun later hw => List.rel_reverse (hbefore.mono hw)
  | cons e es ih =>
    cases hes with
    | cons he hes =>
      exact imitates_bind (hsub hscope he) fun now hnow u u' hu =>
        ih (World.getElem?_of_prefix hnow hscope) hes (.cons hu (hbefore.mono hnow))

theorem alike_evalLoop (hscope : w[s]? = some around) {condition condition' body body' : Code}
    (hcondition : Expr.Rebound Shown around condition condition')
    (hbody : Expr.Rebound Shown around body body') (fuel : Nat) (hlast : v.Rebound Shown w v') :
    Alike Shown ctx.names w (evalLoop sub s condition body fuel v)
      (evalLoop sub s condition' body' fuel v') := by
  induction fuel generalizing w v v' with
  | zero => exact fun _ _ _ _ _ => .unfinished
  | succ fuel ih =>
    refine imitates_bind (hsub hscope hcondition) fun now hnow test test' htest => ?_
    rw [htest.isFalse_eq]
    have hnext := World.getElem?_of_prefix hnow hscope
    exact imitates_ite (alike_pure (hlast.mono hnow)) (imitates_bind (hsub hnext hbody)
      fun later hlater u u' hu => ih (World.getElem?_of_prefix hlater hnext) hu)

theorem alike_evalCall (hscope : w[s]? = some around) {callee callee' : Code} {es es' : List Code}
    (hcallee : Expr.Rebound Shown around callee callee')
    (hes : Expr.ReboundAll Shown around es es') :
    Alike Shown ctx.names w (evalCall ctx sub s callee es) (evalCall ctx sub s callee' es') := by
  refine imitates_bind (hsub hscope hcallee) fun now hnow f f' hf => ?_
  exact imitates_bind
    (imitates_evalArgs hsub (World.getElem?_of_prefix hnow hscope) hes .nil)
    fun later hlater values values' hvalues => alike_callValue hsub (hf.mono hlater) hvalues

theorem alike_evalNode (hscope : w[s]? = some around) (fuel : Nat) {e e' : Code}
    (h : Expr.Rebound Shown around e e') :
    Alike Shown ctx.names w (evalNode ctx sub fuel s e) (evalNode ctx sub fuel s e') := by
  cases h with
  | number span x => exact alike_pure (.number x)
  | string span contents => exact alike_pure (.string _)
  | bool span b => exact alike_pure (.bool b)
  | var span hz => exact alike_readVariable hscope hz
  | lambda span label b hshown hbody => exact alike_pure (.closure b hscope hshown hbody)
  | assign span hz hvalue =>
    exact imitates_bind (hsub hscope hvalue) fun now hnow u u' hu =>
      alike_setVariable (World.getElem?_of_prefix hnow hscope) hz hu
  | binary span op hleft hright => exact alike_evalBinary hsub hscope op hleft hright
  | ifThen span hc ht =>
    refine imitates_bind (hsub hscope hc) fun now hnow test test' htest => ?_
    rw [htest.isFalse_eq]
    exact imitates_ite (alike_pure (.bool false)) (hsub (World.getElem?_of_prefix hnow hscope) ht)
  | ifElse span hc ht he =>
    refine imitates_bind (hsub hscope hc) fun now hnow test test' htest => ?_
    rw [htest.isFalse_eq]
    have hnext := World.getElem?_of_prefix hnow hscope
    exact imitates_ite (hsub hnext he) (hsub hnext ht)
  | loop span hc hbody => exact alike_evalLoop hsub hscope hc hbody fuel (.bool false)
  | seq span hitems => exact alike_evalSeq hsub hscope hitems (.bool false)
  | call span hf hargs => exact alike_evalCall hsub hscope hf hargs

end

/-- Trees that are the same but for the names of parameters are evaluated alike. -/
theorem alike_eval (ctx : Context) (fuel : Nat) {s : ScopeId} {around : List Rebinding}
    {e e' : Code} (hscope : w[s]? = some around) (h : Expr.Rebound Shown around e e') :
    Alike Shown ctx.names w (eval ctx fuel e s) (eval ctx fuel e' s) := by
  induction fuel generalizing w s around e e' with
  | zero => exact fun _ _ _ _ _ => .unfinished
  | succ fuel ih =>
    have hlocated := imitates_mapError (·.located e.span) (alike_evalNode ih hscope fuel h)
    show Alike Shown ctx.names w (Run.mapError (·.located e.span) (evalNode ctx _ fuel s e))
      (Run.mapError (·.located e'.span) (evalNode ctx _ fuel s e'))
    rw [h.span_eq]
    exact hlocated

/-! ## The start of a run -/

/-- The machine that a run starts with corresponds to itself, as no scope of it was made under a
lambda node. -/
theorem rebound_bare (names : Interner) (console : Console) :
    Machine.Rebound Shown names [[]] (bare console).machine (bare console).machine := by
  refine ⟨⟨⟨rfl, fun s z => ?_⟩, rfl, fun _ => rfl, fun s around hs => ?_⟩, .same console, .nil,
    rfl⟩
  · have hnone : ∀ u, (bare console).machine.store.binding? s u = none := by
      intro u
      rcases s with _ | s <;> simp [Store.binding?, bare]
    rw [hnone, hnone]
    exact .none
  · rcases s with _ | s
    · cases hs
      exact .root rfl
    · cases hs

theorem rebound_bindBuiltins {builtins : List Builtin} {i : Interpreter} {first : Interner}
    (hglobal : i.global = 0) (hparent : i.machine.store.parent? 0 = none)
    (hm : Machine.Rebound Shown names [[]] i.machine i.machine) :
    Machine.Rebound Shown names [[]] (bindBuiltins builtins i first).1.machine
      (bindBuiltins builtins i first).1.machine := by
  induction builtins generalizing i first with
  | nil => exact hm
  | cons b builtins ih =>
    rw [bindBuiltins_cons]
    refine ih hglobal ?_ ⟨?_, hm.console, hm.writes, hm.depth⟩
    · exact (Store.parent?_define _).trans hparent
    · have hdefine := hm.store.define (z := (first.intern b.name).1) (.builtin b) (.inr hparent)
      rw [World.perm_nil rfl, Equiv.refl_apply, ← hglobal] at hdefine
      exact hdefine

theorem rebound_startMachine (names first : Interner) (console : Console) :
    Machine.Rebound Shown names [[]] (startMachine first console) (startMachine first console) := by
  rw [startMachine_eq]
  exact rebound_bindBuiltins rfl rfl (rebound_bare names console)

end Rebinding

/-! ## Programs -/

/-- Run the tree of a program on an interpreter of its own. -/
def runTree (tree : Tree) (names : Interner) (limit : Nat) (console : Console) (fuel : Nat) :
    Outcome RunError Aftermath Value :=
  (eval ⟨startNames names, limit⟩ fuel (tree.numbered 0).1 0 (startMachine names console)).leaving
    (startNames names)

/-- Running a source is running its tree. -/
theorem runSource_eq_runTree {source : String} {first names : Interner} {tree : Tree}
    (h : parseSource source first = (.ok tree, names)) (limit : Nat) (console : Console)
    (fuel : Nat) :
    runSource source first limit console fuel = runTree tree names limit console fuel := by
  rw [runSource_eq, h]
  rfl

theorem Rebinding.Agrees.leaving {names : Interner} {w : World}
    {o o' : Outcome RuntimeError Machine Value}
    (h : Agrees Shown names w (Value.Rebound Shown) o o') :
    (o.leaving names).UpTo Shown (o'.leaving names) := by
  cases h with
  | done _ hv hm => exact .done hv.upTo ⟨rfl, hm.console, hm.writes⟩
  | failed _ hm => exact .failed ⟨rfl, hm.console, hm.writes⟩
  | unfinished => exact .unfinished

/-- Trees that are the same but for the names of parameters run alike. -/
theorem upTo_runTree {tree tree' : Tree} (h : Expr.Rebound Shown [] tree tree') (names : Interner)
    (limit : Nat) (console : Console) (fuel : Nat) :
    (runTree tree names limit console fuel).UpTo Shown (runTree tree' names limit console fuel) :=
  (Rebinding.alike_eval ⟨startNames names, limit⟩ fuel (w := [[]]) (s := 0) rfl (h.numbered 0).1
    _ (List.prefix_refl _) _ _ (Rebinding.rebound_startMachine _ names console)).leaving

/-- A parameter of a lambda node of a program can be given another name that does not occur in the
program. The run of the program ends as before, in the same value or in the same error, with the
same output and the same file writes; only the parameters of functions that are shown may be others.
The runs may begin with more strings numbered than those of the program, and so with the new name
among them. -/
theorem bound_names_irrelevant {source : String} {first names : Interner} {tree tree' : Tree}
    {x y : Name} (hparse : parseSource source first = (.ok tree, names))
    (hrenamed : tree.RenamesIn x y tree') (hfresh : tree.Lacks y) (limit : Nat) (console : Console)
    (fuel : Nat) :
    runSource source first limit console fuel = runTree tree names limit console fuel ∧
      ∀ later : Interner, (runTree tree later limit console fuel).UpTo (Expr.ShownAs x y)
        (runTree tree' later limit console fuel) := by
  refine ⟨runSource_eq_runTree hparse limit console fuel, fun later => ?_⟩
  exact upTo_runTree (hrenamed.rebound hfresh fun _ _ => .free) later limit console fuel

/-- The tree of `shownFunction` with this first parameter, if the strings are numbered `z`, `f`,
`=`, `x`, `y`, `print`. -/
def shownFunctionTree (param : Name) : Tree :=
  .seq ⟨0, 32⟩
    [.assign ⟨0, 19⟩ ⟨2⟩ (.lambda ⟨4, 19⟩ () [param, ⟨5⟩] (.var ⟨18, 19⟩ param)),
      .call ⟨21, 29⟩ (.var ⟨21, 26⟩ ⟨6⟩) [.var ⟨27, 28⟩ ⟨2⟩],
      .var ⟨31, 32⟩ ⟨2⟩]

/-- With `z` in place of the parameter `x`, the function is shown with the parameter `z`. -/
theorem bound_names_irrelevant_shownFunction :
    ∃ names, parseSource shownFunction (Interner.fresh.intern "z").2 =
        (.ok (shownFunctionTree ⟨4⟩), names) ∧ names.spelling ⟨1⟩ = "z" ∧
      (shownFunctionTree ⟨4⟩).RenamesIn ⟨4⟩ ⟨1⟩ (shownFunctionTree ⟨1⟩) ∧
      (shownFunctionTree ⟨4⟩).Lacks ⟨1⟩ ∧
      (runSource shownFunction (Interner.fresh.intern "z").2 1 (.buffer "") 9).UpTo
        (Expr.ShownAs ⟨4⟩ ⟨1⟩) (runTree (shownFunctionTree ⟨1⟩) names 1 (.buffer "") 9) ∧
      (runTree (shownFunctionTree ⟨1⟩) names 1 (.buffer "") 9).shown =
        some (.ok (.function, "<lambda(z, y)>"), .buffer "<lambda(z, y)>\n", #[]) := by
  have hnames := Interner.consistent_intern Interner.consistent_fresh "z"
  have hreads : runSourceTokens shownFunction (Interner.fresh.intern "z").2 =
      (.ok (shownFunctionTree ⟨4⟩), []) := by
    with_unfolding_all rfl
  have hparse := (parseSource_eq_ok_iff hnames).mpr ⟨hreads, rfl⟩
  have hrenamed : (shownFunctionTree ⟨4⟩).RenamesIn ⟨4⟩ ⟨1⟩ (shownFunctionTree ⟨1⟩) :=
    .item ⟨0, 32⟩ [] _ (.assign ⟨0, 19⟩ ⟨2⟩ (.here ⟨4, 19⟩ () (by decide) (.var ⟨18, 19⟩ ⟨4⟩)))
  have hfresh : (shownFunctionTree ⟨4⟩).Lacks ⟨1⟩ := by
    simp [shownFunctionTree, Expr.Lacks, Expr.LacksAll]
  obtain ⟨hrun, hsame⟩ := bound_names_irrelevant hparse hrenamed hfresh 1 (.buffer "") 9
  refine ⟨_, hparse, by decide +kernel, hrenamed, hfresh, ?_, by decide +kernel⟩
  rw [hrun]
  exact hsame _

end LambdaScript
