import LambdaScript.Evaluation
/-!
# Output only grows

What a program has printed and written stays: every evaluation, whichever way it ends, only adds to
it (`grows_eval`). There is one lemma for each way to put computations together.
-/

namespace LambdaScript

/-- What was printed and written on `m` was so on `m'`, which may have more behind it. -/
structure Machine.OutputLe (m m' : Machine) : Prop where
  printed : m.console.printed.toList <+: m'.console.printed.toList
  writes : m.writes.toList <+: m'.writes.toList

namespace Machine.OutputLe

theorem refl (m : Machine) : m.OutputLe m := ⟨List.prefix_refl _, List.prefix_refl _⟩

theorem trans {m m' m'' : Machine} (h : m.OutputLe m') (h' : m'.OutputLe m'') : m.OutputLe m'' :=
  ⟨h.printed.trans h'.printed, h.writes.trans h'.writes⟩

/-- Nothing was printed or written. -/
theorem of_eq {m m' : Machine} (hconsole : m'.console = m.console)
    (hwrites : m'.writes = m.writes) : m.OutputLe m' := by
  have hprinted : m.console.printed.toList = m'.console.printed.toList := by rw [hconsole]
  have hfiles : m.writes.toList = m'.writes.toList := by rw [hwrites]
  exact ⟨hprinted ▸ List.prefix_refl _, hfiles ▸ List.prefix_refl _⟩

theorem printLine (m : Machine) (line : String) : m.OutputLe (m.printLine line) where
  printed := by
    obtain ⟨store, console, writes, depth⟩ := m
    cases console <;>
      simp [Machine.printLine, Console.printLine, Console.printed, List.append_assoc]
  writes := List.prefix_refl _

theorem writeFile (m : Machine) (path contents : String) :
    m.OutputLe (m.writeFile path contents) where
  printed := List.prefix_refl _
  writes := by simp [Machine.writeFile]

end Machine.OutputLe

/-- However the computation ended, there is the output of `m`, and perhaps more behind it. -/
def Outcome.Extends {ε α : Type} (m : Machine) : Outcome ε Machine α → Prop
  | .done _ m' | .failed _ m' => m.OutputLe m'
  | .unfinished => True

theorem Outcome.Extends.trans {ε α : Type} {m m' : Machine} {o : Outcome ε Machine α}
    (h : m.OutputLe m') (h' : o.Extends m') : o.Extends m := by
  cases o with
  | done a m'' => exact h.trans h'
  | failed e m'' => exact h.trans h'
  | unfinished => trivial

namespace Eval

variable {α β : Type}

/-- The computation only adds to the output. -/
def Grows (x : Eval α) : Prop := ∀ m, (x m).Extends m

theorem grows_pure (a : α) : Grows (pure a) := fun m => .refl m

theorem grows_fault (f : RuntimeFault) : Grows (fault f : Eval α) := fun m => .refl m

theorem grows_ofExcept (r : Except RuntimeFault α) : Grows (ofExcept r) := by
  cases r with
  | ok a => exact grows_pure a
  | error f => exact grows_fault f

theorem extends_bind {x : Eval α} {f : α → Eval β} {m m' : Machine} (hx : (x m').Extends m)
    (hf : ∀ a, (f a).Grows) : ((x >>= f) m').Extends m := by
  rw [Run.bind_apply]
  cases hresult : x m' with
  | done a m'' =>
    rw [hresult] at hx
    exact .trans hx (hf a m'')
  | failed e m'' =>
    rw [hresult] at hx
    exact hx
  | unfinished => trivial

theorem grows_bind {x : Eval α} {f : α → Eval β} (hx : x.Grows) (hf : ∀ a, (f a).Grows) :
    Grows (x >>= f) :=
  fun m => extends_bind (hx m) hf

theorem grows_ite {p : Prop} [Decidable p] {x y : Eval α} (hx : x.Grows) (hy : y.Grows) :
    Grows (if p then x else y) := by
  split
  · exact hx
  · exact hy

theorem extends_deeper {x : Eval α} {m m' : Machine} (hx : (x m'.enter).Extends m) :
    (x.deeper m').Extends m := by
  rw [deeper]
  cases hresult : x m'.enter with
  | done a m'' | failed e m'' =>
    rw [hresult] at hx
    exact Machine.OutputLe.trans hx (.of_eq rfl rfl)
  | unfinished => trivial

theorem grows_deeper {x : Eval α} (hx : x.Grows) : x.deeper.Grows := by
  intro m
  have henter : m.OutputLe m.enter := .of_eq rfl rfl
  exact extends_deeper (.trans henter (hx m.enter))

theorem extends_mapError {x : Eval α} {m m' : Machine} (f : RuntimeError → RuntimeError)
    (hx : (x m').Extends m) : (Run.mapError f x m').Extends m := by
  rw [Run.mapError]
  cases hresult : x m' with
  | done a m'' | failed e m'' =>
    rw [hresult] at hx
    exact hx
  | unfinished => trivial

end Eval

open Eval

theorem grows_readVariable (ctx : Context) (scope : ScopeId) (name : Name) :
    (readVariable ctx scope name).Grows := by
  intro m
  rw [readVariable]
  split <;> exact Machine.OutputLe.refl m

theorem grows_setVariable (ctx : Context) (scope : ScopeId) (name : Name) (value : Value) :
    (setVariable ctx scope name value).Grows := by
  intro m
  rw [setVariable]
  split <;> exact Machine.OutputLe.of_eq rfl rfl

theorem grows_callBuiltin (ctx : Context) (b : Builtin) (args : List Value) :
    (callBuiltin ctx b args).Grows := by
  cases b with
  | print => exact fun m => .printLine m _
  | write => exact fun m => .writeFile m _ _
  | length =>
    rw [callBuiltin]
    split
    · exact grows_pure _
    · exact grows_fault _

theorem grows_enterScope (c : Closure) (args : List Value) : (enterScope c args).Grows := by
  rintro ⟨store, console, writes, depth⟩
  exact Machine.OutputLe.of_eq rfl rfl

/-- The evaluator of parts only adds to the output. -/
def Evaluator.Grows (sub : Evaluator) : Prop := ∀ e scope, (sub e scope).Grows

section
variable {sub : Evaluator} (h : sub.Grows) (scope : ScopeId)
include h

theorem grows_callClosure (ctx : Context) (c : Closure) (args : List Value) :
    (callClosure ctx sub c args).Grows := by
  rw [callClosure]
  refine grows_bind (fun m => .refl m) fun m => grows_ite (grows_fault _) ?_
  exact grows_bind (grows_enterScope c args) fun inner => grows_deeper (h c.body inner)

theorem grows_callValue (ctx : Context) (callee : Value) (args : List Value) :
    (callValue ctx sub callee args).Grows := by
  rcases callee with x | s | b | c | b
  case function.closure => exact grows_callClosure h ctx c args
  case function.builtin => exact grows_callBuiltin ctx b args
  all_goals exact grows_fault _

theorem grows_evalBinary (op : BinaryOp) (left right : Code) :
    (evalBinary sub scope op left right).Grows :=
  grows_bind (h left scope) fun _ => grows_ite (grows_pure _)
    (grows_bind (h right scope) fun _ => grows_ofExcept _)

theorem grows_evalSeq (items : List Code) (last : Value) :
    (evalSeq sub scope last items).Grows := by
  induction items generalizing last with
  | nil => exact grows_pure last
  | cons item items ih => exact grows_bind (h item scope) fun value => ih value

theorem grows_evalArgs (args : List Code) (before : List Value) :
    (evalArgs sub scope before args).Grows := by
  induction args generalizing before with
  | nil => exact grows_pure _
  | cons arg args ih => exact grows_bind (h arg scope) fun value => ih (value :: before)

theorem grows_evalLoop (condition body : Code) (fuel : Nat) (last : Value) :
    (evalLoop sub scope condition body fuel last).Grows := by
  induction fuel generalizing last with
  | zero => exact fun _ => trivial
  | succ fuel ih =>
    exact grows_bind (h condition scope) fun _ => grows_ite (grows_pure last)
      (grows_bind (h body scope) fun value => ih value)

theorem grows_evalCall (ctx : Context) (callee : Code) (args : List Code) :
    (evalCall ctx sub scope callee args).Grows :=
  grows_bind (h callee scope) fun f =>
    grows_bind (grows_evalArgs h scope args []) fun values => grows_callValue h ctx f values

theorem grows_evalNode (ctx : Context) (fuel : Nat) (e : Code) :
    (evalNode ctx sub fuel scope e).Grows := by
  cases e with
  | number | string | bool | lambda => exact grows_pure _
  | var s x => exact grows_readVariable ctx scope x
  | assign s x value => exact grows_bind (h value scope) fun v => grows_setVariable ctx scope x v
  | binary s op left right => exact grows_evalBinary h scope op left right
  | ifThen s condition thenBranch =>
    exact grows_bind (h condition scope) fun _ => grows_ite (grows_pure _) (h thenBranch scope)
  | ifElse s condition thenBranch elseBranch =>
    exact grows_bind (h condition scope) fun _ =>
      grows_ite (h elseBranch scope) (h thenBranch scope)
  | loop s condition body => exact grows_evalLoop h scope condition body fuel _
  | seq s items => exact grows_evalSeq h scope items _
  | call s callee args => exact grows_evalCall h scope ctx callee args

end

/-- Evaluating an expression only adds to the output. -/
theorem grows_eval (ctx : Context) (fuel : Nat) : Evaluator.Grows (eval ctx fuel) := by
  induction fuel with
  | zero => exact fun _ _ _ => trivial
  | succ fuel ih =>
    intro e scope
    exact fun m => extends_mapError _ (grows_evalNode ih scope ctx fuel e m)

end LambdaScript
