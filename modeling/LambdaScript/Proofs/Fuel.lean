import LambdaScript.Evaluation
/-!
# Enough fuel

One computation is `Covered` by another if the second comes to the same end wherever the first comes
to one. All that evaluation is made of keeps this, so more fuel changes nothing once an evaluation
has ended (`eval_of_le`), and `ComesTo`, the end of an evaluation given enough fuel, is one end
(`ComesTo.unique`).
-/

namespace LambdaScript

namespace Run

variable {ε δ σ α β : Type} {x y : Run ε σ α} {f g : α → Run ε σ β}

/-- Where `x` comes to an end, `y` comes to the same. -/
def Covered (x y : Run ε σ α) : Prop := ∀ s, (x s).Finished → y s = x s

theorem Covered.refl (x : Run ε σ α) : x.Covered x := fun _ _ => rfl

theorem covered_outOfFuel (y : Run ε σ α) : Covered outOfFuel y := fun _ h => h.elim

theorem covered_bind (hx : x.Covered y) (hf : ∀ a, (f a).Covered (g a)) :
    (x >>= f).Covered (y >>= g) := by
  intro s hfinished
  rw [bind_apply] at hfinished ⊢
  -- the first step has ended, or else nothing has
  have hstep : (x s).Finished := by
    cases hresult : x s with
    | done a s₁ => trivial
    | failed e s₁ => trivial
    | unfinished =>
      rw [hresult] at hfinished
      exact hfinished
  rw [bind_apply, hx s hstep]
  cases hresult : x s with
  | done a s₁ =>
    rw [hresult] at hfinished
    exact hf a s₁ hfinished
  | failed e s₁ => rfl
  | unfinished => rfl

theorem covered_ite {p : Prop} [Decidable p] {x' y' : Run ε σ α} (hx : x.Covered y)
    (hx' : x'.Covered y') : (if p then x else x').Covered (if p then y else y') := by
  by_cases hp : p
  · rw [if_pos hp, if_pos hp]
    exact hx
  · rw [if_neg hp, if_neg hp]
    exact hx'

theorem covered_mapError (h : ε → δ) (hx : x.Covered y) :
    (mapError h x).Covered (mapError h y) := by
  intro s hfinished
  have hstep : (x s).Finished := by
    unfold mapError at hfinished
    cases hresult : x s <;> rw [hresult] at hfinished
    · trivial
    · trivial
    · exact hfinished
  show mapError h y s = mapError h x s
  simp only [mapError, hx s hstep]

end Run

open Run

theorem Eval.covered_deeper {α : Type} {x y : Eval α} (hx : x.Covered y) :
    x.deeper.Covered y.deeper := by
  intro m hfinished
  have hstep : (x m.enter).Finished := by
    unfold Eval.deeper at hfinished
    cases hresult : x m.enter <;> rw [hresult] at hfinished
    · trivial
    · trivial
    · exact hfinished
  show y.deeper m = x.deeper m
  simp only [Eval.deeper, hx m.enter hstep]

/-! ## Evaluation -/

section
variable {ctx : Context} {sub sub' : Evaluator}
  (h : ∀ e scope, (sub e scope).Covered (sub' e scope))
include h

theorem covered_evalBinary (scope : ScopeId) (op : BinaryOp) (left right : Code) :
    (evalBinary sub scope op left right).Covered (evalBinary sub' scope op left right) := by
  unfold evalBinary
  apply covered_bind (h left scope)
  intro a
  apply covered_ite (.refl _)
  apply covered_bind (h right scope)
  intro b
  exact .refl _

theorem covered_evalSeq (scope : ScopeId) (last : Value) (items : List Code) :
    (evalSeq sub scope last items).Covered (evalSeq sub' scope last items) := by
  induction items generalizing last with
  | nil => exact .refl _
  | cons item items ih => exact covered_bind (h item scope) ih

theorem covered_evalArgs (scope : ScopeId) (before : List Value) (args : List Code) :
    (evalArgs sub scope before args).Covered (evalArgs sub' scope before args) := by
  induction args generalizing before with
  | nil => exact .refl _
  | cons arg args ih => exact covered_bind (h arg scope) fun value => ih (value :: before)

/-- A loop that ends within some rounds ends within more. -/
theorem covered_evalLoop (scope : ScopeId) (condition body : Code) {fuel fuel' : Nat}
    (hfuel : fuel ≤ fuel') (last : Value) :
    (evalLoop sub scope condition body fuel last).Covered
      (evalLoop sub' scope condition body fuel' last) := by
  induction fuel generalizing fuel' last with
  | zero => exact covered_outOfFuel _
  | succ fuel ih =>
    obtain ⟨more, rfl⟩ := Nat.exists_eq_add_of_le' hfuel
    rw [← Nat.add_assoc, evalLoop, evalLoop]
    apply covered_bind (h condition scope)
    intro test
    apply covered_ite (.refl _)
    exact covered_bind (h body scope) fun value => ih (Nat.le_add_left fuel more) value

theorem covered_callValue (callee : Value) (args : List Value) :
    (callValue ctx sub callee args).Covered (callValue ctx sub' callee args) := by
  rcases callee with x | s | b | c | b
  case function.closure =>
    rw [callValue, callValue, callClosure, callClosure]
    apply covered_bind (.refl _)
    intro m
    apply covered_ite (.refl _)
    apply covered_bind (.refl _)
    intro scope
    exact Eval.covered_deeper (h c.body scope)
  all_goals exact .refl _

theorem covered_evalCall (scope : ScopeId) (callee : Code) (args : List Code) :
    (evalCall ctx sub scope callee args).Covered (evalCall ctx sub' scope callee args) := by
  unfold evalCall
  apply covered_bind (h callee scope)
  intro f
  apply covered_bind (covered_evalArgs h scope [] args)
  intro values
  exact covered_callValue h f values

theorem covered_evalNode {fuel fuel' : Nat} (hfuel : fuel ≤ fuel') (scope : ScopeId) (e : Code) :
    (evalNode ctx sub fuel scope e).Covered (evalNode ctx sub' fuel' scope e) := by
  cases e with
  | number | string | bool | var | lambda => exact .refl _
  | assign s x value => exact covered_bind (h value scope) fun v => .refl _
  | binary s op left right => exact covered_evalBinary h scope op left right
  | ifThen s condition thenBranch =>
    apply covered_bind (h condition scope)
    intro test
    exact covered_ite (.refl _) (h thenBranch scope)
  | ifElse s condition thenBranch elseBranch =>
    apply covered_bind (h condition scope)
    intro test
    exact covered_ite (h elseBranch scope) (h thenBranch scope)
  | loop s condition body => exact covered_evalLoop h scope condition body hfuel _
  | seq s items => exact covered_evalSeq h scope _ items
  | call s callee args => exact covered_evalCall h scope callee args

end

section
variable {ctx : Context} {e : Code} {scope : ScopeId} {m : Machine}
  {o o' : Outcome RuntimeError Machine Value}

theorem covered_eval (ctx : Context) {fuel fuel' : Nat} (hfuel : fuel ≤ fuel') (e : Code)
    (scope : ScopeId) : (eval ctx fuel e scope).Covered (eval ctx fuel' e scope) := by
  induction fuel generalizing fuel' e scope with
  | zero => exact covered_outOfFuel _
  | succ fuel ih =>
    obtain ⟨more, rfl⟩ := Nat.exists_eq_add_of_le' hfuel
    have hless : fuel ≤ more + fuel := Nat.le_add_left fuel more
    exact covered_mapError _ (covered_evalNode (fun e scope => ih hless e scope) hless scope e)

/-- Once an evaluation has come to an end, more fuel does not change it. -/
theorem eval_of_le {fuel fuel' : Nat} (hfuel : fuel ≤ fuel')
    (hfinished : (eval ctx fuel e scope m).Finished) :
    eval ctx fuel' e scope m = eval ctx fuel e scope m :=
  covered_eval ctx hfuel e scope m hfinished

/-- Evaluating the expression comes to this end, given enough fuel. -/
def ComesTo (ctx : Context) (e : Code) (scope : ScopeId) (m : Machine)
    (o : Outcome RuntimeError Machine Value) : Prop :=
  o.Finished ∧ ∃ fuel, eval ctx fuel e scope m = o

namespace ComesTo

/-- From some fuel on the end is the same. -/
theorem exists_fuel (h : ComesTo ctx e scope m o) :
    ∃ fuel, ∀ more, fuel ≤ more → eval ctx more e scope m = o := by
  obtain ⟨hfinished, fuel, rfl⟩ := h
  exact ⟨fuel, fun more hfuel => eval_of_le hfuel hfinished⟩

/-- An evaluation has one end. -/
theorem unique (h : ComesTo ctx e scope m o) (h' : ComesTo ctx e scope m o') : o = o' := by
  obtain ⟨fuel, hfuel⟩ := h.exists_fuel
  obtain ⟨fuel', hfuel'⟩ := h'.exists_fuel
  rw [← hfuel (max fuel fuel') (Nat.le_max_left _ _),
    hfuel' (max fuel fuel') (Nat.le_max_right _ _)]

end ComesTo

end

end LambdaScript
