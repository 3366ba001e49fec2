import LambdaScript.Proofs.Fuel
import LambdaScript.Proofs.Moments
/-!
# Operators that may skip their right operand

`&&` and `||` stand twice among the definitions: `Value.binary` applies them to two values, and
`evalBinary` skips the right operand where the left one settles the matter. Both agree
(`shortCircuit_agrees`): a right operand that is skipped could not have changed the value, and one
that is evaluated gives the value, with all that its evaluation does.
-/

namespace LambdaScript

/-- The left operand settles the value: `false` does so for `&&`, and anything else for `||`. -/
inductive Settles : BinaryOp → Value → Prop
  | and : Settles .and (.bool false)
  | or {a} (h : a ≠ .bool false) : Settles .or a

section
variable {op : BinaryOp} {a : Value}

theorem Value.isFalse_iff : a.isFalse = true ↔ a = .bool false := by
  rcases a with x | s | (_ | _) | f <;> simp [isFalse]

theorem decides_iff : decides op a = true ↔ Settles op a := by
  constructor
  · intro h
    cases op with
    | and =>
      have hfalse : a.isFalse = true := by simpa [decides, BinaryOp.isShortCircuit] using h
      rw [Value.isFalse_iff.mp hfalse]
      exact .and
    | or =>
      refine .or fun hfalse => ?_
      rw [hfalse] at h
      contradiction
    | _ => contradiction
  · intro h
    cases h with
    | and => rfl
    | or h =>
      have hother : a.isFalse = false := Bool.eq_false_iff.mpr (mt Value.isFalse_iff.mp h)
      rw [decides, hother]
      rfl

/-- An operand that settles the value is the value, whatever the other one is. -/
theorem Settles.binary (h : Settles op a) (b : Value) : Value.binary op a b = .ok a := by
  cases h with
  | and => rfl
  | or h => rw [Value.binary, if_neg (mt Value.isFalse_iff.mp h)]

/-- Where the left operand settles nothing, the value is the right one. -/
theorem binary_of_not_settles (hop : op = .and ∨ op = .or) (h : ¬Settles op a) (b : Value) :
    Value.binary op a b = .ok b := by
  rcases hop with rfl | rfl
  · have hother : a.isFalse ≠ true := fun hfalse => h (Value.isFalse_iff.mp hfalse ▸ .and)
    rw [Value.binary, if_neg hother]
  · have hfalse : a = .bool false := Classical.byContradiction fun hne => h (.or hne)
    rw [hfalse]
    rfl

end

section
variable {ctx : Context} {fuel : Nat} {e left right : Code} {scope : ScopeId} {m m₁ m₂ : Machine}
  {op : BinaryOp} {a b : Value} {s : Span} {error : RuntimeError}

/-! ## One evaluation -/

/-- An error that comes out of an evaluation has its span. -/
theorem exists_span_of_eval (h : eval ctx fuel e scope m = .failed error m₁) :
    ∃ inner, error.span = some inner := by
  obtain ⟨p, m₂, -, -, hspan, -⟩ := Moment.exists_raises (p := ⟨[], fuel, e, scope, m⟩) h
  exact ⟨_, hspan⟩

/-- Behind a left operand that settles the value, nothing else is evaluated. -/
theorem eval_binary_of_settles (hleft : eval ctx fuel left scope m = .done a m₁)
    (h : Settles op a) : eval ctx (fuel + 1) (.binary s op left right) scope m = .done a m₁ := by
  have hnode : evalNode ctx (eval ctx fuel) fuel scope (.binary s op left right) m =
      .done a m₁ := by
    rw [evalNode, evalBinary, Run.bind_apply, hleft]
    show (if decides op a then pure a else _ : Eval Value) m₁ = _
    rw [if_pos (decides_iff.mpr h)]
    rfl
  simp only [eval, Run.mapError, hnode]

/-- Otherwise it comes down to the right operand: its value, its error, and what it does. -/
theorem eval_binary_of_not_settles (hop : op = .and ∨ op = .or)
    (hleft : eval ctx fuel left scope m = .done a m₁) (h : ¬Settles op a) :
    eval ctx (fuel + 1) (.binary s op left right) scope m = eval ctx fuel right scope m₁ := by
  have hnode : evalNode ctx (eval ctx fuel) fuel scope (.binary s op left right) m =
      eval ctx fuel right scope m₁ := by
    rw [evalNode, evalBinary, Run.bind_apply, hleft]
    show (if decides op a then pure a else _ : Eval Value) m₁ = _
    rw [if_neg (mt decides_iff.mp h), Run.bind_apply]
    cases hright : eval ctx fuel right scope m₁ with
    | done b m₂ =>
      show Eval.ofExcept (Value.binary op a b) m₂ = .done b m₂
      rw [binary_of_not_settles hop h]
      rfl
    | failed error m₂ => rfl
    | unfinished => rfl
  simp only [eval, Run.mapError, hnode]
  cases hright : eval ctx fuel right scope m₁ with
  | done b m₂ => rfl
  | failed error m₂ =>
    -- the operand has taken the blame already
    obtain ⟨inner, hspan⟩ := exists_span_of_eval hright
    exact congrArg (Outcome.failed · m₂) (RuntimeError.located_of_span hspan)
  | unfinished => rfl

/-! ## Ends of evaluations -/

theorem comesTo_binary_of_settles (hleft : ComesTo ctx left scope m (.done a m₁))
    (h : Settles op a) : ComesTo ctx (.binary s op left right) scope m (.done a m₁) := by
  obtain ⟨-, fuel, hleft⟩ := hleft
  exact ⟨trivial, fuel + 1, eval_binary_of_settles hleft h⟩

theorem comesTo_binary_iff (hop : op = .and ∨ op = .or)
    (hleft : ComesTo ctx left scope m (.done a m₁)) (h : ¬Settles op a)
    (o : Outcome RuntimeError Machine Value) :
    ComesTo ctx (.binary s op left right) scope m o ↔ ComesTo ctx right scope m₁ o := by
  obtain ⟨fuel, hleft⟩ := hleft.exists_fuel
  have hsame : ∀ more, fuel ≤ more →
      eval ctx (more + 1) (.binary s op left right) scope m = eval ctx more right scope m₁ :=
    fun more hmore => eval_binary_of_not_settles hop (hleft more hmore) h
  constructor
  · intro hwhole
    obtain ⟨needed, hwhole'⟩ := hwhole.exists_fuel
    refine ⟨hwhole.1, max fuel needed, ?_⟩
    rw [← hsame _ (Nat.le_max_left _ _)]
    exact hwhole' _ (Nat.le_trans (Nat.le_max_right _ _) (Nat.le_succ _))
  · intro hright
    obtain ⟨needed, hright'⟩ := hright.exists_fuel
    refine ⟨hright.1, max fuel needed + 1, ?_⟩
    rw [hsame _ (Nat.le_max_left _ _)]
    exact hright' _ (Nat.le_max_right _ _)

/-- Evaluating `&&` and `||` agrees with applying them to two values. Where the left operand settles
the value, the right one is skipped, and no value of it would have made a difference. Where it does
not, the right one is evaluated after it, and all that comes of this is what comes of the whole.
So a right operand with a value and without effect may as well be evaluated. -/
theorem shortCircuit_agrees (hop : op = .and ∨ op = .or)
    (hleft : ComesTo ctx left scope m (.done a m₁)) :
    (Settles op a →
      (∀ o, ComesTo ctx (.binary s op left right) scope m o ↔ o = .done a m₁) ∧
      ∀ b, Value.binary op a b = .ok a) ∧
    (¬Settles op a →
      (∀ o, ComesTo ctx (.binary s op left right) scope m o ↔ ComesTo ctx right scope m₁ o) ∧
      ∀ b, Value.binary op a b = .ok b) ∧
    ∀ b, ComesTo ctx right scope m₁ (.done b m₁) → ∃ v, Value.binary op a b = .ok v ∧
      ComesTo ctx (.binary s op left right) scope m (.done v m₁) := by
  refine ⟨fun h => ⟨fun o => ⟨fun ho => ?_, ?_⟩, h.binary⟩, fun h => ⟨?_, ?_⟩, fun b hright => ?_⟩
  · exact ho.unique (comesTo_binary_of_settles hleft h)
  · rintro rfl
    exact comesTo_binary_of_settles hleft h
  · exact comesTo_binary_iff hop hleft h
  · exact binary_of_not_settles hop h
  · by_cases h : Settles op a
    · exact ⟨a, h.binary b, comesTo_binary_of_settles hleft h⟩
    · exact ⟨b, binary_of_not_settles hop h b, (comesTo_binary_iff hop hleft h _).mpr hright⟩

/-- The operand `(lambda () true)()`, which makes a scope. -/
def scopedTruth : Code := .call .dummy (.lambda .dummy 0 [] (.bool .dummy true)) []

/-- Behind it, the operand `true()` is skipped by `||`, and fails behind `&&` as it does alone. -/
theorem shortCircuit_agrees_scopedTruth : ∃ m₁,
    ComesTo ⟨.fresh, 1⟩ scopedTruth 0 (.fresh (.buffer "")) (.done (.bool true) m₁) ∧
      m₁.store.scopes.size = 1 ∧
      ComesTo ⟨.fresh, 1⟩
        (.binary .dummy .or scopedTruth (.call ⟨4, 10⟩ (.bool .dummy true) [])) 0
        (.fresh (.buffer "")) (.done (.bool true) m₁) ∧
      ComesTo ⟨.fresh, 1⟩
        (.binary .dummy .and scopedTruth (.call ⟨4, 10⟩ (.bool .dummy true) [])) 0
        (.fresh (.buffer "")) (.failed ⟨.notCallable .boolean, some ⟨4, 10⟩⟩ m₁) := by
  have hleft : ComesTo ⟨.fresh, 1⟩ scopedTruth 0 (.fresh (.buffer "")) (.done (.bool true) _) :=
    ⟨trivial, 2, rfl⟩
  have hsettles : Settles .or (.bool true) := .or (by simp)
  have hopen : ¬Settles .and (.bool true) := fun h => by cases h
  refine ⟨_, hleft, rfl, ?_, ?_⟩
  · exact (((shortCircuit_agrees (.inr rfl) hleft).1 hsettles).1 _).mpr rfl
  · exact (((shortCircuit_agrees (.inl rfl) hleft).2.1 hopen).1 _).mpr ⟨trivial, 2, rfl⟩

end

end LambdaScript
