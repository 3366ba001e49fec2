import LambdaScript.Proofs.Moments
/-!
# Names that are looked up in a run

Evaluation goes by the numbers of names. It asks for the string of a name in a few places only
(`LooksUp`): the contents of a string, a variable that is missing, and the parameters of a closure
that is printed or written. These are all (`evalNode_of_looksUp`): nothing else about the interner
makes a difference.
-/

namespace LambdaScript

/-- The names whose strings are shown with a value. -/
def Value.shownNames : Value → List Name
  | function (.closure c) => c.params
  | _ => []

/-- The values that a built-in shows. -/
def Builtin.shown : Builtin → List Value → List Value
  | print, args => [args.headD (.bool false)]
  | length, _ => []
  | write, args => [args.headD (.bool false), args.tail.headD (.bool false)]

section
variable (sub : Evaluator) (scope : ScopeId) (m : Machine)

/-- Evaluating an expression, its parts and the bodies that it enters left aside, asks for the
string of a name. -/
inductive LooksUp : Code → Name → Prop
  | string {s x} : LooksUp (.string s x) x
  | var {s x} (h : m.store.get scope x = none) : LooksUp (.var s x) x
  | assign {s x value v m'} (hvalue : sub value scope m = .done v m')
      (h : m'.store.target? scope x = none) : LooksUp (.assign s x value) x
  | shown {s callee args b m₁ values m₂ v x}
      (hcallee : sub callee scope m = .done (.function (.builtin b)) m₁)
      (hargs : evalArgs sub scope [] args m₁ = .done values m₂) (hv : v ∈ b.shown values)
      (hx : x ∈ v.shownNames) : LooksUp (.call s callee args) x

end

/-- The moment asks for the string of a name. -/
def Moment.LooksUp (ctx : Context) (p : Moment) (x : Name) : Prop :=
  ∃ fuel, p.fuel = fuel + 1 ∧ LambdaScript.LooksUp (eval ctx fuel) p.scope p.machine p.code x

section
variable {names names' : Interner} {limit : Nat} {sub : Evaluator} {scope : ScopeId}

/-- A value is shown alike if its names are spelled alike. -/
theorem Value.display_of_shownNames {v : Value}
    (h : ∀ x ∈ v.shownNames, names'.spelling x = names.spelling x) :
    v.display names' = v.display names := by
  rcases v with x | s | b | c | b
  case function.closure =>
    have hparams : c.params.map names'.spelling = c.params.map names.spelling :=
      List.map_congr_left h
    rw [display, display, hparams]
  all_goals rfl

theorem callBuiltin_of_shown {b : Builtin} {args : List Value}
    (h : ∀ v ∈ b.shown args, ∀ x ∈ v.shownNames, names'.spelling x = names.spelling x) :
    callBuiltin ⟨names', limit⟩ b args = callBuiltin ⟨names, limit⟩ b args := by
  have hshown : ∀ v ∈ b.shown args, v.display names' = v.display names :=
    fun v hv => Value.display_of_shownNames (h v hv)
  cases b with
  | print => simp only [callBuiltin, hshown _ List.mem_cons_self]
  | write =>
    simp only [callBuiltin, hshown _ List.mem_cons_self,
      hshown _ (List.mem_cons_of_mem _ List.mem_cons_self)]
  | length => rfl

/-- Two interners come to the same for one expression if they agree on the names that it looks
up. -/
theorem evalNode_of_looksUp {fuel : Nat} {e : Code} {m : Machine}
    (h : ∀ x, LooksUp sub scope m e x → names'.spelling x = names.spelling x) :
    evalNode ⟨names', limit⟩ sub fuel scope e m = evalNode ⟨names, limit⟩ sub fuel scope e m := by
  cases e with
  | string s contents => rw [evalNode, evalNode, h _ .string]
  | var s x =>
    rw [evalNode, evalNode, readVariable, readVariable]
    cases hget : m.store.get scope x with
    | some value => rfl
    | none => simp only [h _ (.var hget)]
  | assign s x value =>
    rw [evalNode, evalNode]
    refine Run.bind_congr_apply rfl fun v m₁ hvalue => ?_
    rw [setVariable, setVariable]
    cases htarget : m₁.store.target? scope x with
    | some found => rfl
    | none => simp only [h _ (.assign hvalue htarget)]
  | call s callee args =>
    rw [evalNode, evalNode, evalCall, evalCall]
    refine Run.bind_congr_apply rfl fun f m₁ hcallee => ?_
    refine Run.bind_congr_apply rfl fun values m₂ hvalues => ?_
    rcases f with x | s | b | c | b
    case function.builtin =>
      have hagree := fun v hv x hx => h x (.shown hcallee hvalues (v := v) hv hx)
      rw [callValue, callValue, callBuiltin_of_shown hagree]
    all_goals rfl
  | _ => rfl

end

end LambdaScript
