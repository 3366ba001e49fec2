import Mathlib.Logic.Relation
import LambdaScript.Evaluation
/-!
# Moments of a run

A `Moment` is one call of the evaluator: an expression about to be evaluated in a scope, on a
machine. `Calls` leads from a moment to those that its evaluation asks for, a part of the expression
in the same scope or the body of a called closure in a new one, and `Reaches` to all that follow.
These are all the calls there are (`Moment.outcome_eq`), also when the evaluation never ends. An
error is raised by a moment that is reached, after all that this moment asks for has succeeded
(`Moment.exists_raises`).
-/

namespace LambdaScript

/-- An expression about to be evaluated. -/
structure Moment where
  /-- The labels of the closures whose bodies are being evaluated, the innermost one first. -/
  active : List Nat
  fuel : Nat
  code : Code
  scope : ScopeId
  machine : Machine

/-- How the evaluation ends. -/
def Moment.outcome (ctx : Context) (p : Moment) : Outcome RuntimeError Machine Value :=
  eval ctx p.fuel p.code p.scope p.machine

/-! ## Parts and bodies -/

section
variable (ctx : Context) (sub : Evaluator) (scope : ScopeId)

/-- An expression of a list is evaluated after those before it. -/
inductive AsksItem : List Code → Machine → Code → Machine → Prop
  | head {item items m} : AsksItem (item :: items) m item m
  | tail {item items m value m₁ e m'} (hitem : sub item scope m = .done value m₁)
      (h : AsksItem items m₁ e m') : AsksItem (item :: items) m e m'

/-- Condition and body of a loop are evaluated in turn, as long as the condition is not false. -/
inductive AsksRound (condition body : Code) : Nat → Machine → Code → Machine → Prop
  | condition {fuel m} : AsksRound condition body (fuel + 1) m condition m
  | body {fuel m test m₁} (hcondition : sub condition scope m = .done test m₁)
      (htest : test.isFalse = false) : AsksRound condition body (fuel + 1) m body m₁
  | again {fuel m test m₁ value m₂ e m'} (hcondition : sub condition scope m = .done test m₁)
      (htest : test.isFalse = false) (hbody : sub body scope m₁ = .done value m₂)
      (h : AsksRound condition body fuel m₂ e m') : AsksRound condition body (fuel + 1) m e m'

/-- Evaluating an expression on `m` asks for the value of one of its parts, on another machine. -/
inductive Asks (fuel : Nat) (m : Machine) : Code → Code → Machine → Prop
  | value {s x value} : Asks fuel m (.assign s x value) value m
  | left {s op left right} : Asks fuel m (.binary s op left right) left m
  | right {s op left right a m₁} (hleft : sub left scope m = .done a m₁)
      (hdecides : decides op a = false) : Asks fuel m (.binary s op left right) right m₁
  | ifOnly {s condition thenBranch} : Asks fuel m (.ifThen s condition thenBranch) condition m
  | thenOnly {s condition thenBranch test m₁} (hcondition : sub condition scope m = .done test m₁)
      (htest : test.isFalse = false) : Asks fuel m (.ifThen s condition thenBranch) thenBranch m₁
  | choice {s condition thenBranch elseBranch} :
      Asks fuel m (.ifElse s condition thenBranch elseBranch) condition m
  | thenBranch {s condition thenBranch elseBranch test m₁}
      (hcondition : sub condition scope m = .done test m₁) (htest : test.isFalse = false) :
      Asks fuel m (.ifElse s condition thenBranch elseBranch) thenBranch m₁
  | elseBranch {s condition thenBranch elseBranch test m₁}
      (hcondition : sub condition scope m = .done test m₁) (htest : test.isFalse = true) :
      Asks fuel m (.ifElse s condition thenBranch elseBranch) elseBranch m₁
  | round {s condition body e m'} (h : AsksRound sub scope condition body fuel m e m') :
      Asks fuel m (.loop s condition body) e m'
  | item {s items e m'} (h : AsksItem sub scope items m e m') : Asks fuel m (.seq s items) e m'
  | callee {s callee args} : Asks fuel m (.call s callee args) callee m
  | arg {s callee args f m₁ e m'} (hcallee : sub callee scope m = .done f m₁)
      (h : AsksItem sub scope args m₁ e m') : Asks fuel m (.call s callee args) e m'

/-- Evaluating an expression on `m` comes to the body of a closure, in a scope made for it. -/
inductive Enters (m : Machine) : Code → Closure → ScopeId → Machine → Prop
  | call {s callee args c m₁ values m₂ inner m'}
      (hcallee : sub callee scope m = .done (.function (.closure c)) m₁)
      (hargs : evalArgs sub scope [] args m₁ = .done values m₂) (hdepth : m₂.depth < ctx.limit)
      (henter : enterScope c values m₂ = .done inner m') :
      Enters m (.call s callee args) c inner m'.enter

end

/-- The next calls of the evaluator. -/
inductive Calls (ctx : Context) : Moment → Moment → Prop
  | part {active fuel e scope m e' m'} (h : Asks (eval ctx fuel) scope fuel m e e' m') :
      Calls ctx ⟨active, fuel + 1, e, scope, m⟩ ⟨active, fuel, e', scope, m'⟩
  | body {active fuel e scope m c inner m'} (h : Enters ctx (eval ctx fuel) scope m e c inner m') :
      Calls ctx ⟨active, fuel + 1, e, scope, m⟩ ⟨c.label :: active, fuel, c.body, inner, m'⟩

/-- All calls of the evaluator that a moment leads to, itself included. -/
abbrev Reaches (ctx : Context) : Moment → Moment → Prop := Relation.ReflTransGen (Calls ctx)

/-! ## No other calls -/

section Congruence

variable {ctx : Context} {sub sub' : Evaluator} {scope : ScopeId}

/-- Two steps agree with two others if the first ones do, and the second ones on what comes out of
the first. -/
theorem Run.bind_congr_apply {ε σ α β : Type} {x x' : Run ε σ α} {f f' : α → Run ε σ β} {s : σ}
    (hx : x' s = x s) (hf : ∀ a s₁, x s = .done a s₁ → f' a s₁ = f a s₁) :
    (x' >>= f') s = (x >>= f) s := by
  rw [Run.bind_apply, Run.bind_apply, hx]
  cases hresult : x s with
  | done a s₁ => exact hf a s₁ hresult
  | failed e s₁ => rfl
  | unfinished => rfl

theorem evalSeq_congr {items : List Code} {last : Value} {m : Machine}
    (h : ∀ e m', AsksItem sub scope items m e m' → sub' e scope m' = sub e scope m') :
    evalSeq sub' scope last items m = evalSeq sub scope last items m := by
  induction items generalizing last m with
  | nil => rfl
  | cons item items ih =>
    rw [evalSeq, evalSeq]
    apply Run.bind_congr_apply (h item m .head)
    intro value m₁ hitem
    apply ih
    intro e m' hask
    exact h e m' (.tail hitem hask)

theorem evalArgs_congr {args : List Code} {before : List Value} {m : Machine}
    (h : ∀ e m', AsksItem sub scope args m e m' → sub' e scope m' = sub e scope m') :
    evalArgs sub' scope before args m = evalArgs sub scope before args m := by
  induction args generalizing before m with
  | nil => rfl
  | cons arg args ih =>
    rw [evalArgs, evalArgs]
    apply Run.bind_congr_apply (h arg m .head)
    intro value m₁ harg
    apply ih
    intro e m' hask
    exact h e m' (.tail harg hask)

theorem evalLoop_congr {condition body : Code} {fuel : Nat} {last : Value} {m : Machine}
    (h : ∀ e m', AsksRound sub scope condition body fuel m e m' →
      sub' e scope m' = sub e scope m') :
    evalLoop sub' scope condition body fuel last m =
      evalLoop sub scope condition body fuel last m := by
  induction fuel generalizing last m with
  | zero => rfl
  | succ fuel ih =>
    rw [evalLoop, evalLoop]
    apply Run.bind_congr_apply (h condition m .condition)
    intro test m₁ hcondition
    by_cases htest : test.isFalse = true
    · rw [if_pos htest, if_pos htest]
    -- another round: its parts are asked for by the loop, and so are those of the rounds behind it
    rw [Bool.not_eq_true] at htest
    rw [htest, if_neg Bool.false_ne_true, if_neg Bool.false_ne_true]
    apply Run.bind_congr_apply (h body m₁ (.body hcondition htest))
    intro value m₂ hbody
    apply ih
    intro e m' hask
    exact h e m' (.again hcondition htest hbody hask)

theorem evalBinary_congr {op : BinaryOp} {left right : Code} {m : Machine}
    (hleft : sub' left scope m = sub left scope m)
    (hright : ∀ a m₁, sub left scope m = .done a m₁ → decides op a = false →
      sub' right scope m₁ = sub right scope m₁) :
    evalBinary sub' scope op left right m = evalBinary sub scope op left right m := by
  rw [evalBinary, evalBinary]
  apply Run.bind_congr_apply hleft
  intro a m₁ ha
  by_cases hdecides : decides op a = true
  · rw [if_pos hdecides, if_pos hdecides]
  · rw [if_neg hdecides, if_neg hdecides]
    apply Run.bind_congr_apply (hright a m₁ ha (Bool.not_eq_true _ ▸ hdecides))
    intro b m₂ hb
    rfl

theorem callValue_congr {callee : Value} {args : List Value} {m : Machine}
    (h : ∀ c inner m', callee = .function (.closure c) → m.depth < ctx.limit →
      enterScope c args m = .done inner m' →
      sub' c.body inner m'.enter = sub c.body inner m'.enter) :
    callValue ctx sub' callee args m = callValue ctx sub callee args m := by
  rcases callee with _ | _ | _ | c | b
  case function.closure =>
    rw [callValue, callValue, callClosure, callClosure]
    apply Run.bind_congr_apply rfl
    intro m₁ m₂ hget
    obtain ⟨rfl, rfl⟩ := Outcome.done.inj hget
    by_cases hdepth : ctx.limit ≤ m.depth
    · rw [if_pos hdepth, if_pos hdepth]
    · rw [if_neg hdepth, if_neg hdepth]
      apply Run.bind_congr_apply rfl
      intro inner m' henter
      have hbody := h c inner m' rfl (Nat.lt_of_not_le hdepth) henter
      simp only [Eval.deeper, hbody]
  all_goals rfl

theorem evalCall_congr {callee : Code} {args : List Code} {m : Machine} {s : Span}
    (hcallee : sub' callee scope m = sub callee scope m)
    (hargs : ∀ f m₁ e m', sub callee scope m = .done f m₁ → AsksItem sub scope args m₁ e m' →
      sub' e scope m' = sub e scope m')
    (hbody : ∀ c inner m', Enters ctx sub scope m (.call s callee args) c inner m' →
      sub' c.body inner m' = sub c.body inner m') :
    evalCall ctx sub' scope callee args m = evalCall ctx sub scope callee args m := by
  rw [evalCall, evalCall]
  apply Run.bind_congr_apply hcallee
  intro f m₁ hf
  apply Run.bind_congr_apply (evalArgs_congr fun e m' hask => hargs f m₁ e m' hf hask)
  intro values m₂ hvalues
  apply callValue_congr
  intro c inner m' hc hdepth henter
  rw [hc] at hf
  exact hbody c inner _ (.call hf hvalues hdepth henter)

/-- Evaluating one expression depends on the evaluator of parts only where it asks for a part or
enters a body. -/
theorem evalNode_congr {fuel : Nat} {e : Code} {m : Machine}
    (hask : ∀ e' m', Asks sub scope fuel m e e' m' → sub' e' scope m' = sub e' scope m')
    (henter : ∀ c inner m', Enters ctx sub scope m e c inner m' →
      sub' c.body inner m' = sub c.body inner m') :
    evalNode ctx sub' fuel scope e m = evalNode ctx sub fuel scope e m := by
  cases e with
  | number | string | bool | var | lambda => rfl
  | assign s x value =>
    rw [evalNode, evalNode]
    apply Run.bind_congr_apply (hask _ _ .value)
    intro v m₁ hvalue
    rfl
  | binary s op left right =>
    apply evalBinary_congr (hask _ _ .left)
    intro a m₁ hleft hdecides
    exact hask _ _ (.right hleft hdecides)
  | ifThen s condition thenBranch =>
    rw [evalNode, evalNode]
    apply Run.bind_congr_apply (hask _ _ .ifOnly)
    intro test m₁ hcondition
    by_cases htest : test.isFalse = true
    · rw [if_pos htest, if_pos htest]
    · rw [if_neg htest, if_neg htest]
      exact hask _ _ (.thenOnly hcondition (Bool.not_eq_true _ ▸ htest))
  | ifElse s condition thenBranch elseBranch =>
    rw [evalNode, evalNode]
    apply Run.bind_congr_apply (hask _ _ .choice)
    intro test m₁ hcondition
    by_cases htest : test.isFalse = true
    · rw [if_pos htest, if_pos htest]
      exact hask _ _ (.elseBranch hcondition htest)
    · rw [if_neg htest, if_neg htest]
      exact hask _ _ (.thenBranch hcondition (Bool.not_eq_true _ ▸ htest))
  | loop s condition body => exact evalLoop_congr fun e m' h => hask e m' (.round h)
  | seq s items => exact evalSeq_congr fun e m' h => hask e m' (.item h)
  | call s callee args =>
    apply evalCall_congr (hask _ _ .callee) _ henter
    intro f m₁ e m' hcallee harg
    exact hask e m' (.arg hcallee harg)

/-- How an evaluation ends is determined by how those end that it calls. -/
theorem Moment.outcome_eq {active : List Nat} {fuel : Nat} {e : Code} {m : Machine}
    (h : ∀ q, Calls ctx ⟨active, fuel + 1, e, scope, m⟩ q →
      sub' q.code q.scope q.machine = q.outcome ctx) :
    (Moment.mk active (fuel + 1) e scope m).outcome ctx =
      Run.mapError (·.located e.span) (evalNode ctx sub' fuel scope e) m := by
  have hnode := evalNode_congr (fun e' m' hask => h _ (.part hask))
    (fun c inner m' henter => h _ (.body henter))
  simp only [Moment.outcome, eval, Run.mapError]
  rw [← hnode]

end Congruence

/-! ## Errors -/

/-- A call that fails at once. -/
inductive Refuses (ctx : Context) (m : Machine) : Value → List Value → RuntimeFault → Prop
  | notCallable {callee args} (h : ∀ f, callee ≠ .function f) :
      Refuses ctx m callee args (.notCallable callee.kind)
  | length {args} (h : ∀ s, args.head? ≠ some (.string s)) :
      Refuses ctx m (.function (.builtin .length)) args
        (.wrongArgument Builtin.length.name "a string" (args.head?.map Value.kind))
  | overflow {c args} (h : ctx.limit ≤ m.depth) :
      Refuses ctx m (.function (.closure c)) args (.stackOverflow ctx.limit)

/-- An expression whose parts have succeeded is itself at fault, and leaves `m'`. -/
inductive Faults (ctx : Context) (sub : Evaluator) (scope : ScopeId) (m : Machine) :
    Code → RuntimeFault → Machine → Prop
  | var {s x} (h : m.store.get scope x = none) :
      Faults ctx sub scope m (.var s x) (.undefinedVariable (ctx.names.spelling x)) m
  | assign {s x value v m'} (hvalue : sub value scope m = .done v m')
      (h : m'.store.target? scope x = none) :
      Faults ctx sub scope m (.assign s x value) (.undefinedVariable (ctx.names.spelling x)) m'
  | binary {s op left right a m₁ b m' fault} (hleft : sub left scope m = .done a m₁)
      (hdecides : decides op a = false) (hright : sub right scope m₁ = .done b m')
      (h : Value.binary op a b = .error fault) :
      Faults ctx sub scope m (.binary s op left right) fault m'
  | call {s callee args f m₁ values m' fault} (hcallee : sub callee scope m = .done f m₁)
      (hargs : evalArgs sub scope [] args m₁ = .done values m')
      (h : Refuses ctx m' f values fault) : Faults ctx sub scope m (.call s callee args) fault m'

/-- The moment raises the fault itself and leaves `m'`. -/
def Moment.Raises (ctx : Context) (p : Moment) (fault : RuntimeFault) (m' : Machine) : Prop :=
  ∃ fuel, p.fuel = fuel + 1 ∧ Faults ctx (eval ctx fuel) p.scope p.machine p.code fault m'

section Failure

variable {ctx : Context} {sub : Evaluator} {scope : ScopeId} {error : RuntimeError}

/-- A failing sequence of two steps fails in one of them. -/
theorem Run.bind_failed {ε σ α β : Type} {x : Run ε σ α} {f : α → Run ε σ β} {s s' : σ} {e : ε}
    (h : (x >>= f) s = .failed e s') :
    x s = .failed e s' ∨ ∃ a s₁, x s = .done a s₁ ∧ f a s₁ = .failed e s' := by
  rw [Run.bind_apply] at h
  cases hx : x s with
  | done a s₁ =>
    rw [hx] at h
    exact .inr ⟨a, s₁, rfl, h⟩
  | failed e s₁ =>
    rw [hx] at h
    cases h
    exact .inl rfl
  | unfinished =>
    rw [hx] at h
    contradiction

theorem evalSeq_failed {items : List Code} {last : Value} {m m' : Machine}
    (h : evalSeq sub scope last items m = .failed error m') :
    ∃ e m₁, AsksItem sub scope items m e m₁ ∧ sub e scope m₁ = .failed error m' := by
  induction items generalizing last m with
  | nil => contradiction
  | cons item items ih =>
    rw [evalSeq] at h
    rcases Run.bind_failed h with h | ⟨value, m₁, hitem, h⟩
    · exact ⟨item, m, .head, h⟩
    · obtain ⟨e, m₂, hask, h⟩ := ih h
      exact ⟨e, m₂, .tail hitem hask, h⟩

theorem evalArgs_failed {args : List Code} {before : List Value} {m m' : Machine}
    (h : evalArgs sub scope before args m = .failed error m') :
    ∃ e m₁, AsksItem sub scope args m e m₁ ∧ sub e scope m₁ = .failed error m' := by
  induction args generalizing before m with
  | nil => contradiction
  | cons arg args ih =>
    rw [evalArgs] at h
    rcases Run.bind_failed h with h | ⟨value, m₁, harg, h⟩
    · exact ⟨arg, m, .head, h⟩
    · obtain ⟨e, m₂, hask, h⟩ := ih h
      exact ⟨e, m₂, .tail harg hask, h⟩

theorem evalLoop_failed {condition body : Code} {fuel : Nat} {last : Value} {m m' : Machine}
    (h : evalLoop sub scope condition body fuel last m = .failed error m') :
    ∃ e m₁, AsksRound sub scope condition body fuel m e m₁ ∧
      sub e scope m₁ = .failed error m' := by
  induction fuel generalizing last m with
  | zero => contradiction
  | succ fuel ih =>
    rw [evalLoop] at h
    rcases Run.bind_failed h with h | ⟨test, m₁, hcondition, h⟩
    · exact ⟨condition, m, .condition, h⟩
    by_cases htest : test.isFalse = true
    · rw [if_pos htest] at h
      contradiction
    rw [if_neg htest] at h
    rw [Bool.not_eq_true] at htest
    rcases Run.bind_failed h with h | ⟨value, m₂, hbody, h⟩
    · exact ⟨body, m₁, .body hcondition htest, h⟩
    · obtain ⟨e, m₃, hask, h⟩ := ih h
      exact ⟨e, m₃, .again hcondition htest hbody hask, h⟩

theorem evalBinary_failed {s : Span} {op : BinaryOp} {left right : Code} {fuel : Nat}
    {m m' : Machine} (h : evalBinary sub scope op left right m = .failed error m') :
    (∃ fault, Faults ctx sub scope m (.binary s op left right) fault m' ∧
        error = .ofFault fault) ∨
      ∃ e' m₁, Asks sub scope fuel m (.binary s op left right) e' m₁ ∧
        sub e' scope m₁ = .failed error m' := by
  rw [evalBinary] at h
  rcases Run.bind_failed h with h | ⟨a, m₁, hleft, h⟩
  · exact .inr ⟨left, m, .left, h⟩
  by_cases hdecides : decides op a = true
  · rw [if_pos hdecides] at h
    contradiction
  rw [if_neg hdecides] at h
  rw [Bool.not_eq_true] at hdecides
  rcases Run.bind_failed h with h | ⟨b, m₂, hright, h⟩
  · exact .inr ⟨right, m₁, .right hleft hdecides, h⟩
  · cases hop : Value.binary op a b with
    | ok v =>
      rw [hop] at h
      contradiction
    | error fault =>
      rw [hop] at h
      cases h
      exact .inl ⟨fault, .binary hleft hdecides hright hop, rfl⟩

theorem callBuiltin_failed {b : Builtin} {args : List Value} {m m' : Machine}
    (h : callBuiltin ctx b args m = .failed error m') :
    ∃ fault, Refuses ctx m (.function (.builtin b)) args fault ∧ error = .ofFault fault ∧
      m' = m := by
  cases b with
  | print | write => contradiction
  | length =>
    simp only [callBuiltin] at h
    obtain ⟨hstring, rfl, rfl⟩ : (∀ s, args.head? ≠ some (.string s)) ∧
        error = .ofFault (.wrongArgument Builtin.length.name "a string"
          (args.head?.map Value.kind)) ∧ m' = m := by
      -- only a string has a length
      rcases hhead : args.head? with _ | (x | s | b | f) <;> rw [hhead] at h <;> cases h
      all_goals
        refine ⟨?_, rfl, rfl⟩
        intro s hs
        cases hs
    exact ⟨_, .length hstring, rfl, rfl⟩

/-- A failing call fails at once or in the body of a closure. -/
theorem callValue_failed {callee : Value} {args : List Value} {m m' : Machine}
    (h : callValue ctx sub callee args m = .failed error m') :
    (∃ fault, Refuses ctx m callee args fault ∧ error = .ofFault fault ∧ m' = m) ∨
      ∃ c inner m₁ m₂, callee = .function (.closure c) ∧ m.depth < ctx.limit ∧
        enterScope c args m = .done inner m₁ ∧ sub c.body inner m₁.enter = .failed error m₂ ∧
        m' = m₂.leave := by
  rcases callee with x | s | b | c | b
  case function.closure =>
    rw [callValue, callClosure, Run.bind_apply] at h
    simp only [Run.get] at h
    by_cases hdepth : ctx.limit ≤ m.depth
    · rw [if_pos hdepth] at h
      cases h
      exact .inl ⟨_, .overflow hdepth, rfl, rfl⟩
    rw [if_neg hdepth] at h
    rcases Run.bind_failed h with h | ⟨inner, m₁, henter, h⟩
    · contradiction
    -- the depth is restored behind the body, whichever way it ends
    unfold Eval.deeper at h
    cases hbody : sub c.body inner m₁.enter with
    | failed e m₂ =>
      rw [hbody] at h
      cases h
      exact .inr ⟨c, inner, m₁, m₂, rfl, Nat.lt_of_not_le hdepth, henter, hbody, rfl⟩
    | done value m₂ =>
      rw [hbody] at h
      contradiction
    | unfinished =>
      rw [hbody] at h
      contradiction
  case function.builtin => exact .inl (callBuiltin_failed h)
  all_goals
    cases h
    refine .inl ⟨_, .notCallable ?_, rfl, rfl⟩
    intro f hf
    cases hf

theorem evalCall_failed {s : Span} {callee : Code} {args : List Code} {fuel : Nat}
    {m m' : Machine} (h : evalCall ctx sub scope callee args m = .failed error m') :
    (∃ fault, Faults ctx sub scope m (.call s callee args) fault m' ∧ error = .ofFault fault) ∨
      (∃ e' m₁, Asks sub scope fuel m (.call s callee args) e' m₁ ∧
        sub e' scope m₁ = .failed error m') ∨
      ∃ c inner m₁ m₂, Enters ctx sub scope m (.call s callee args) c inner m₁ ∧
        sub c.body inner m₁ = .failed error m₂ ∧ m' = m₂.leave := by
  rw [evalCall] at h
  rcases Run.bind_failed h with h | ⟨f, m₁, hcallee, h⟩
  · exact .inr (.inl ⟨callee, m, .callee, h⟩)
  rcases Run.bind_failed h with h | ⟨values, m₂, hargs, h⟩
  · obtain ⟨e, m₂, hask, h⟩ := evalArgs_failed h
    exact .inr (.inl ⟨e, m₂, .arg hcallee hask, h⟩)
  -- callee and arguments are known: the call itself fails, or the body does
  rcases callValue_failed h with ⟨fault, hrefuses, he, rfl⟩ | hbody
  · exact .inl ⟨fault, .call hcallee hargs hrefuses, he⟩
  · obtain ⟨c, inner, m₃, m₄, rfl, hdepth, henter, hbody, rfl⟩ := hbody
    exact .inr (.inr ⟨c, inner, _, m₄, .call hcallee hargs hdepth henter, hbody, rfl⟩)

/-- An expression that fails is at fault itself, or a part of it or an entered body fails. -/
theorem evalNode_failed {fuel : Nat} {e : Code} {m m' : Machine}
    (h : evalNode ctx sub fuel scope e m = .failed error m') :
    (∃ fault, Faults ctx sub scope m e fault m' ∧ error = .ofFault fault) ∨
      (∃ e' m₁, Asks sub scope fuel m e e' m₁ ∧ sub e' scope m₁ = .failed error m') ∨
      ∃ c inner m₁ m₂, Enters ctx sub scope m e c inner m₁ ∧
        sub c.body inner m₁ = .failed error m₂ ∧ m' = m₂.leave := by
  cases e with
  | number | string | bool | lambda => contradiction
  | var s x =>
    rw [evalNode, readVariable] at h
    cases hget : m.store.get scope x with
    | some value =>
      rw [hget] at h
      contradiction
    | none =>
      rw [hget] at h
      cases h
      exact .inl ⟨_, .var hget, rfl⟩
  | assign s x value =>
    rw [evalNode] at h
    rcases Run.bind_failed h with h | ⟨v, m₁, hvalue, h⟩
    · exact .inr (.inl ⟨value, m, .value, h⟩)
    · rw [setVariable] at h
      cases htarget : m₁.store.target? scope x with
      | some found =>
        rw [htarget] at h
        contradiction
      | none =>
        rw [htarget] at h
        cases h
        exact .inl ⟨_, .assign hvalue htarget, rfl⟩
  | binary s op left right => exact (evalBinary_failed h).imp_right .inl
  | ifThen s condition thenBranch =>
    rw [evalNode] at h
    rcases Run.bind_failed h with h | ⟨test, m₁, hcondition, h⟩
    · exact .inr (.inl ⟨condition, m, .ifOnly, h⟩)
    · by_cases htest : test.isFalse = true
      · rw [if_pos htest] at h
        contradiction
      · rw [if_neg htest] at h
        rw [Bool.not_eq_true] at htest
        exact .inr (.inl ⟨thenBranch, m₁, .thenOnly hcondition htest, h⟩)
  | ifElse s condition thenBranch elseBranch =>
    rw [evalNode] at h
    rcases Run.bind_failed h with h | ⟨test, m₁, hcondition, h⟩
    · exact .inr (.inl ⟨condition, m, .choice, h⟩)
    · by_cases htest : test.isFalse = true
      · rw [if_pos htest] at h
        exact .inr (.inl ⟨elseBranch, m₁, .elseBranch hcondition htest, h⟩)
      · rw [if_neg htest] at h
        rw [Bool.not_eq_true] at htest
        exact .inr (.inl ⟨thenBranch, m₁, .thenBranch hcondition htest, h⟩)
  | loop s condition body =>
    obtain ⟨e, m₁, hask, h⟩ := evalLoop_failed h
    exact .inr (.inl ⟨e, m₁, .round hask, h⟩)
  | seq s items =>
    obtain ⟨e, m₁, hask, h⟩ := evalSeq_failed h
    exact .inr (.inl ⟨e, m₁, .item hask, h⟩)
  | call s callee args => exact evalCall_failed h

theorem Value.binary_ne_undefinedVariable (op : BinaryOp) (a b : Value) (name : String) :
    Value.binary op a b ≠ .error (.undefinedVariable name) := by
  intro h
  cases op with
  | add => cases a <;> cases b <;> cases h
  | sub | mul =>
    simp only [Value.binary] at h
    cases a <;> cases b <;> cases h
  | div | mod =>
    simp only [Value.binary] at h
    rcases a with x | s | b | f <;> rcases b with y | t | c | g
    case number.number =>
      simp only [Value.dividends] at h
      by_cases hy : (y == 0) = true
      · rw [if_pos hy] at h
        cases h
      · rw [if_neg hy] at h
        cases h
    all_goals cases h
  | lt | le | gt | ge => cases a <;> cases b <;> cases h
  | eq | ne | and | or => contradiction

/-- Only variables and assignments miss a name. -/
theorem Faults.of_undefinedVariable {e : Code} {m m' : Machine} {name : String}
    (h : Faults ctx sub scope m e (.undefinedVariable name) m') :
    ∃ x, name = ctx.names.spelling x ∧
      ((∃ s, e = .var s x ∧ m' = m ∧ m.store.get scope x = none) ∨
        ∃ s value v, e = .assign s x value ∧ sub value scope m = .done v m' ∧
          m'.store.target? scope x = none) := by
  cases h with
  | var h => exact ⟨_, rfl, .inl ⟨_, rfl, rfl, h⟩⟩
  | assign hvalue h => exact ⟨_, rfl, .inr ⟨_, _, _, rfl, hvalue, h⟩⟩
  | binary _ _ _ h => exact absurd h (Value.binary_ne_undefinedVariable _ _ _ _)
  | call _ _ h => contradiction

theorem RuntimeError.located_of_span {span inner : Span} (h : error.span = some inner) :
    error.located span = error := by
  cases error
  cases h
  rfl

/-- A failing evaluation reaches the moment that raised the error, and the error bears the span of
its expression; no scope has changed since. -/
theorem Moment.exists_raises {p : Moment} {m' : Machine}
    (h : p.outcome ctx = .failed error m') :
    ∃ q m₁, Reaches ctx p q ∧ q.Raises ctx error.fault m₁ ∧ error.span = some q.code.span ∧
      m₁.store = m'.store := by
  obtain ⟨active, fuel, e, scope, m⟩ := p
  -- On the way out the error passes through the expressions around, which do not change it.
  induction fuel generalizing active e scope m m' error with
  | zero => contradiction
  | succ fuel ih =>
    rw [Moment.outcome] at h
    simp only [eval, Run.mapError] at h
    cases hnode : evalNode ctx (eval ctx fuel) fuel scope e m with
    | done value m₁ =>
      rw [hnode] at h
      contradiction
    | unfinished =>
      rw [hnode] at h
      contradiction
    | failed inner m₁ =>
      rw [hnode] at h
      cases h
      rcases evalNode_failed hnode with ⟨fault, hfaults, rfl⟩ | ⟨e', m₂, hask, hpart⟩ |
        ⟨c, body, m₂, m₃, henter, hbody, rfl⟩
      · exact ⟨_, _, .refl, ⟨fuel, rfl, hfaults⟩, rfl, rfl⟩
      · obtain ⟨q, m₃, hreaches, hraises, hspan, hstore⟩ := ih active e' scope m₂ hpart
        rw [RuntimeError.located_of_span hspan]
        exact ⟨q, m₃, .head (.part hask) hreaches, hraises, hspan, hstore⟩
      · obtain ⟨q, m₄, hreaches, hraises, hspan, hstore⟩ :=
          ih (c.label :: active) c.body body m₂ hbody
        rw [RuntimeError.located_of_span hspan]
        exact ⟨q, m₄, .head (.body henter) hreaches, hraises, hspan, hstore⟩

end Failure

end LambdaScript
