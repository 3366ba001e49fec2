import LambdaScript.Proofs.Hosts
/-!
# Who is to blame for an error

An error that a program ends with was raised at one moment of its run (`Blamed`): by an expression
of a program that was run on the interpreter, of the form that fits the fault, all parts of which
had succeeded. The span of the error is the span of that expression, and the evaluations around it
pass the error on as it is (`exists_blamed`).
-/

namespace LambdaScript

/-! ## What fits a fault -/

namespace RuntimeFault

/-- The operator that a fault is about. -/
def operator? : RuntimeFault → Option BinaryOp
  | notANumber op _ | invalidDenominator op _ | typeMismatch op _ _ => some op
  | _ => none

/-- The expression can raise the fault: it has the name or the operator that the fault reports, or
is a call. -/
def Fits (names : Interner) : RuntimeFault → Code → Prop
  | undefinedVariable name, .var _ x | undefinedVariable name, .assign _ x _ =>
    names.spelling x = name
  | notANumber op _, .binary _ op' _ _ | invalidDenominator op _, .binary _ op' _ _
  | typeMismatch op _ _, .binary _ op' _ _ => op' = op
  | notCallable _, .call _ _ _ | wrongArgument _ _ _, .call _ _ _
  | stackOverflow _, .call _ _ _ => True
  | _, _ => False

theorem fits_binary {names : Interner} {fault : RuntimeFault} {op : BinaryOp}
    (h : fault.operator? = some op) (s : Span) (left right : Code) :
    fault.Fits names (.binary s op left right) := by
  cases fault <;> cases h <;> rfl

end RuntimeFault

namespace Value

theorem operator?_numbers {op : BinaryOp} {a b : Value} {fault : RuntimeFault}
    (h : numbers op a b = .error fault) : fault.operator? = some op := by
  cases a <;> cases b <;> cases h <;> rfl

theorem operator?_badDenominator (op : BinaryOp) (v : Value) :
    (RuntimeFault.badDenominator op v).operator? = some op := by
  cases v <;> rfl

theorem operator?_dividends {op : BinaryOp} {a b : Value} {fault : RuntimeFault}
    (h : dividends op a b = .error fault) : fault.operator? = some op := by
  rcases a with x | _ | _ | _
  case number =>
    rcases b with y | _ | _ | _
    case number =>
      simp only [dividends] at h
      split at h <;> cases h
      exact operator?_badDenominator op _
    all_goals
      cases h
      exact operator?_badDenominator op _
  all_goals
    cases h
    rfl

/-- What goes wrong in an operation is reported with its operator. -/
theorem operator?_binary {op : BinaryOp} {a b : Value} {fault : RuntimeFault}
    (h : binary op a b = .error fault) : fault.operator? = some op := by
  cases op with
  | add => cases a <;> cases b <;> cases h <;> rfl
  | sub | mul =>
    simp only [binary] at h
    cases hn : numbers _ a b <;> rw [hn] at h <;> cases h
    exact operator?_numbers hn
  | div | mod =>
    simp only [binary] at h
    cases hn : dividends _ a b <;> rw [hn] at h <;> cases h
    exact operator?_dividends hn
  | lt | le | gt | ge =>
    simp only [binary, order] at h
    cases hc : compare? a b <;> rw [hc] at h <;> cases h
    rfl
  | eq | ne | and | or => cases h

end Value

/-! ## The moment that raises a fault -/

section
variable {ctx : Context} {sub : Evaluator} {scope : ScopeId} {m m' : Machine} {e : Code}
  {fault : RuntimeFault}

theorem Faults.fits (h : Faults ctx sub scope m e fault m') : fault.Fits ctx.names e := by
  cases h with
  | var | assign => rfl
  | binary _ _ _ h => exact RuntimeFault.fits_binary (Value.operator?_binary h) _ _ _
  | call _ _ h => cases h <;> trivial

theorem callValue_of_refuses {callee : Value} {args : List Value}
    (h : Refuses ctx m callee args fault) :
    callValue ctx sub callee args m = .failed (.ofFault fault) m := by
  cases h with
  | notCallable h =>
    rcases callee with _ | _ | _ | f
    case function => exact absurd rfl (h f)
    all_goals rfl
  | length h =>
    simp only [callValue, callBuiltin]
    rfl
  | overflow h =>
    simp only [callValue, callClosure, Run.bind_apply, Run.get]
    rw [if_pos h]
    rfl

/-- An expression that is at fault fails. -/
theorem evalNode_of_faults (h : Faults ctx sub scope m e fault m') (fuel : Nat) :
    evalNode ctx sub fuel scope e m = .failed (.ofFault fault) m' := by
  cases h with
  | var h => simp only [evalNode, readVariable, h]
  | assign hvalue h => simp only [evalNode, Run.bind_apply, hvalue, setVariable, h]
  | binary hleft hdecides hright h =>
    rw [evalNode, evalBinary, Run.bind_apply, hleft]
    simp only [hdecides, Bool.false_eq_true, if_false, Run.bind_apply, hright, h]
    rfl
  | call hcallee hargs h =>
    simp only [evalNode, evalCall, Run.bind_apply, hcallee, hargs, callValue_of_refuses h]

/-- When all arguments have a value, each of them has been evaluated to one. -/
theorem exists_done_of_evalArgs {args : List Code} {before values : List Value}
    (hargs : evalArgs sub scope before args m = .done values m') {e' : Code} {m₁ : Machine}
    (h : AsksItem sub scope args m e' m₁) : ∃ v m₂, sub e' scope m₁ = .done v m₂ := by
  induction h generalizing before with
  | @head arg args m =>
    rw [evalArgs, Run.bind_apply] at hargs
    cases hvalue : sub arg scope m with
    | done v m₂ => exact ⟨v, m₂, rfl⟩
    | failed | unfinished =>
      rw [hvalue] at hargs
      contradiction
  | tail hitem _ ih =>
    rw [evalArgs, Run.bind_apply, hitem] at hargs
    exact ih hargs

/-- All parts of an expression that is at fault have a value. -/
theorem Faults.exists_done (h : Faults ctx sub scope m e fault m') {fuel : Nat} {e' : Code}
    {m₁ : Machine} (hask : Asks sub scope fuel m e e' m₁) :
    ∃ v m₂, sub e' scope m₁ = .done v m₂ := by
  cases h with
  | var => contradiction
  | assign hvalue h =>
    cases hask
    exact ⟨_, _, hvalue⟩
  | binary hleft hdecides hright h =>
    cases hask with
    | left => exact ⟨_, _, hleft⟩
    | right hleft' hdecides' =>
      rw [hleft] at hleft'
      cases hleft'
      exact ⟨_, _, hright⟩
  | call hcallee hargs h =>
    cases hask with
    | callee => exact ⟨_, _, hcallee⟩
    | arg hcallee' harg =>
      rw [hcallee] at hcallee'
      cases hcallee'
      exact exists_done_of_evalArgs hargs harg

/-- An expression that is at fault enters no body. -/
theorem Faults.not_enters (h : Faults ctx sub scope m e fault m') {c : Closure} {inner : ScopeId}
    {m₁ : Machine} : ¬Enters ctx sub scope m e c inner m₁ := by
  rintro ⟨hcallee, hargs, hdepth, henter⟩
  cases h with
  | call hcallee' hargs' h =>
    rw [hcallee] at hcallee'
    cases hcallee'
    rw [hargs] at hargs'
    cases hargs'
    cases h with
    | notCallable h => exact h _ rfl
    | overflow h => exact Nat.not_le_of_lt hdepth h

end

/-! ## The evaluations around it -/

section
variable {ctx : Context} {sub : Evaluator} {scope : ScopeId} {m m₁ m' : Machine} {e e' : Code}
  {error : RuntimeError}

theorem evalSeq_of_asksItem {items : List Code} {last : Value}
    (h : AsksItem sub scope items m e m₁) (hitem : sub e scope m₁ = .failed error m') :
    evalSeq sub scope last items m = .failed error m' := by
  induction h generalizing last with
  | head => rw [evalSeq, Run.bind_apply, hitem]
  | tail hbefore _ ih =>
    rw [evalSeq, Run.bind_apply, hbefore]
    exact ih hitem

theorem evalArgs_of_asksItem {args : List Code} {before : List Value}
    (h : AsksItem sub scope args m e m₁) (harg : sub e scope m₁ = .failed error m') :
    evalArgs sub scope before args m = .failed error m' := by
  induction h generalizing before with
  | head => rw [evalArgs, Run.bind_apply, harg]
  | tail hbefore _ ih =>
    rw [evalArgs, Run.bind_apply, hbefore]
    exact ih harg

theorem evalLoop_of_asksRound {condition body : Code} {fuel : Nat} {last : Value}
    (h : AsksRound sub scope condition body fuel m e m₁)
    (hpart : sub e scope m₁ = .failed error m') :
    evalLoop sub scope condition body fuel last m = .failed error m' := by
  induction h generalizing last with
  | condition => rw [evalLoop, Run.bind_apply, hpart]
  | body hcondition htest =>
    rw [evalLoop, Run.bind_apply, hcondition]
    simp only [htest, Bool.false_eq_true, if_false, Run.bind_apply, hpart]
  | again hcondition htest hbody _ ih =>
    rw [evalLoop, Run.bind_apply, hcondition]
    simp only [htest, Bool.false_eq_true, if_false, Run.bind_apply, hbody]
    exact ih hpart

/-- The error of a part that is asked for is the error of the whole. -/
theorem evalNode_of_asks {fuel : Nat} (h : Asks sub scope fuel m e e' m₁)
    (hpart : sub e' scope m₁ = .failed error m') :
    evalNode ctx sub fuel scope e m = .failed error m' := by
  cases h with
  | value | ifOnly | choice => rw [evalNode, Run.bind_apply, hpart]
  | left => rw [evalNode, evalBinary, Run.bind_apply, hpart]
  | right hleft hdecides =>
    rw [evalNode, evalBinary, Run.bind_apply, hleft]
    simp only [hdecides, Bool.false_eq_true, if_false, Run.bind_apply, hpart]
  | thenOnly hcondition htest | thenBranch hcondition htest | elseBranch hcondition htest =>
    rw [evalNode, Run.bind_apply, hcondition]
    simp only [htest, Bool.false_eq_true, if_false, if_true, hpart]
  | round h => exact evalLoop_of_asksRound h hpart
  | item h => exact evalSeq_of_asksItem h hpart
  | callee => rw [evalNode, evalCall, Run.bind_apply, hpart]
  | arg hcallee h =>
    rw [evalNode, evalCall, Run.bind_apply, hcallee]
    simp only [Run.bind_apply, evalArgs_of_asksItem h hpart]

/-- The error of a body that is entered is the error of the call. -/
theorem evalNode_of_enters {fuel : Nat} {c : Closure} {inner : ScopeId}
    (h : Enters ctx sub scope m e c inner m₁) (hbody : sub c.body inner m₁ = .failed error m') :
    evalNode ctx sub fuel scope e m = .failed error m'.leave := by
  obtain ⟨hcallee, hargs, hdepth, henter⟩ := h
  simp only [evalNode, evalCall, Run.bind_apply, hcallee, hargs, callValue, callClosure, Run.get]
  rw [if_neg (Nat.not_le_of_lt hdepth), Run.bind_apply, henter]
  simp only [Eval.deeper, hbody]

end

section
variable {ctx : Context} {p q : Moment} {error : RuntimeError} {m : Machine}

/-- An error with a span is passed on as it is by the evaluation that has asked for it. -/
theorem exists_failed_of_calls (h : Calls ctx p q) (hq : q.outcome ctx = .failed error m)
    {s : Span} (hspan : error.span = some s) : ∃ m', p.outcome ctx = .failed error m' := by
  cases h with
  | part hask =>
    refine ⟨m, ?_⟩
    simp only [Moment.outcome, eval, Run.mapError, evalNode_of_asks hask hq]
    rw [RuntimeError.located_of_span hspan]
  | body henter =>
    refine ⟨m.leave, ?_⟩
    simp only [Moment.outcome, eval, Run.mapError, evalNode_of_enters henter hq]
    rw [RuntimeError.located_of_span hspan]

theorem exists_failed_of_reaches (h : Reaches ctx p q)
    (hq : q.outcome ctx = .failed error m) {s : Span} (hspan : error.span = some s) :
    ∃ m', p.outcome ctx = .failed error m' := by
  induction h using Relation.ReflTransGen.head_induction_on with
  | refl => exact ⟨m, hq⟩
  | head hcalls _ ih =>
    obtain ⟨m₁, hfailed⟩ := ih
    exact exists_failed_of_calls hcalls hfailed hspan

theorem Moment.Raises.fits {fault : RuntimeFault} (h : p.Raises ctx fault m) :
    fault.Fits ctx.names p.code := by
  obtain ⟨fuel, -, hfaults⟩ := h
  exact hfaults.fits

/-- A moment that raises a fault fails with it, at the span of its own expression. -/
theorem Moment.Raises.outcome {fault : RuntimeFault} (h : p.Raises ctx fault m) :
    p.outcome ctx = .failed ⟨fault, some p.code.span⟩ m := by
  obtain ⟨active, _, e, scope, start⟩ := p
  obtain ⟨fuel, rfl, hfaults⟩ := h
  simp only [Moment.outcome, eval, Run.mapError, evalNode_of_faults hfaults]
  rfl

/-- Before a moment raises a fault, all it has asked for has succeeded, and no body was entered. -/
theorem Moment.Raises.calls {fault : RuntimeFault} (h : p.Raises ctx fault m)
    (hcalls : Calls ctx p q) :
    q.active = p.active ∧ q.code ∈ p.code.parts ∧ ∃ v m₁, q.outcome ctx = .done v m₁ := by
  obtain ⟨fuel, hfuel, hfaults⟩ := h
  cases hcalls with
  | part hask =>
    cases hfuel
    exact ⟨rfl, mem_parts_of_asks hask, hfaults.exists_done hask⟩
  | body henter =>
    cases hfuel
    exact absurd henter hfaults.not_enters

end

/-! ## The blame -/

/-- In the evaluation that begins at `start`, the moment `p` is to blame for the error. -/
structure Blamed (ctx : Context) (codes : List Code) (start : Moment) (error : RuntimeError)
    (p : Moment) : Prop where
  reaches : Reaches ctx start p
  /-- Its expression stands in one of the programs, inside of lambda nodes or not. -/
  standsIn : p.code.StandsIn codes
  fits : error.fault.Fits ctx.names p.code
  span : error.span = some p.code.span
  /-- It raises the error itself, … -/
  raises : ∃ m, p.Raises ctx error.fault m ∧ p.outcome ctx = .failed error m
  /-- … after all that it has asked for has succeeded. -/
  parts : ∀ q, Calls ctx p q →
    q.active = p.active ∧ q.code ∈ p.code.parts ∧ ∃ v m, q.outcome ctx = .done v m
  /-- Everything around it ends with the same error, its span included. -/
  around : ∀ q, Reaches ctx start q → Reaches ctx q p → ∃ m, q.outcome ctx = .failed error m

namespace Interpreter

variable {i i' : Interpreter} {codes : List Code} {names : Interner} {fuel : Nat} {code : Code}
  {error : RuntimeError}

/-- The error of a program points at the expression that has raised it. -/
theorem exists_blamed (h : Used i codes) (hcode : code.StandsIn codes)
    (hrun : evalCode names fuel i.global code i = .failed error i') :
    ∃ p, Blamed (i.context names) codes (i.start fuel code) error p := by
  obtain ⟨m, houtcome, -⟩ := outcome_of_failed hrun
  obtain ⟨p, m₁, hreaches, hraises, hspan, -⟩ := Moment.exists_raises houtcome
  have hfailed : p.outcome (i.context names) = .failed error m₁ := by
    rw [hraises.outcome, ← hspan]
  exact ⟨p, {
    reaches := hreaches
    standsIn := h.standsIn hcode hreaches
    fits := hraises.fits
    span := hspan
    raises := ⟨m₁, hraises, hfailed⟩
    parts := fun q hcalls => hraises.calls hcalls
    around := fun q _ hq => exists_failed_of_reaches hq hfailed hspan }⟩

/-- The program `(lambda () true())()`. -/
def calledTruth : Tree :=
  .call ⟨0, 20⟩ (.lambda ⟨1, 17⟩ () [] (.call ⟨11, 17⟩ (.bool ⟨11, 15⟩ true) [])) []

/-- The interpreter that `calledTruth` has been loaded into. -/
def withCalledTruth : Interpreter := ((build .fresh (.buffer "") 1 []).1.load calledTruth).2

/-- The call inside of the function is to blame, not the call of the function. -/
theorem exists_blamed_calledTruth :
    ∃ error i', evalCode .fresh 3 0 (calledTruth.numbered 0).1 withCalledTruth =
        .failed error i' ∧ error.span = some ⟨11, 17⟩ ∧
      ∃ p, Blamed ⟨.fresh, 1⟩ [(calledTruth.numbered 0).1]
        (withCalledTruth.start 3 (calledTruth.numbered 0).1) error p := by
  have hused : Used withCalledTruth [(calledTruth.numbered 0).1] :=
    .load calledTruth (.build fun _ _ => List.not_mem_nil)
  have hrun : evalCode .fresh 3 0 (calledTruth.numbered 0).1 withCalledTruth =
      .failed ⟨.notCallable .boolean, some ⟨11, 17⟩⟩ _ := rfl
  exact ⟨_, _, hrun, rfl, exists_blamed hused (Expr.standsIn_of_mem List.mem_cons_self) hrun⟩

end Interpreter

end LambdaScript
