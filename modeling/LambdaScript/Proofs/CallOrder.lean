import LambdaScript.Proofs.Discipline
import LambdaScript.Proofs.Nesting
/-!
# Calls in turn

The calls of the evaluator that a moment leads to come in turn: `InTurn ctx p x y` says that `p`
calls `x` and then `y`. Evaluation goes on from where a call has ended, to the next call
(`InTurn.endsBy`) and to its own end (`Moment.EndsBy.reaches`). What can be said of time is said in
scopes here: they are numbered as they are made and never dropped, so a store with more of them is a
later one.
-/

namespace LambdaScript

open Store

/-! ## Parts in turn -/

section
variable (sub : Evaluator) (scope : ScopeId)

/-- Of two expressions of a list, the first one is evaluated before the second. -/
inductive ItemsInTurn : List Code → Machine → Code → Machine → Code → Machine → Prop
  | head {item items m value m₁ e m'} (hitem : sub item scope m = .done value m₁)
      (h : AsksItem sub scope items m₁ e m') : ItemsInTurn (item :: items) m item m e m'
  | tail {item items m value m₁ e m' f m''} (hitem : sub item scope m = .done value m₁)
      (h : ItemsInTurn items m₁ e m' f m'') : ItemsInTurn (item :: items) m e m' f m''

/-- In a round of a loop the condition is evaluated before the body, and both before those of later
rounds. -/
inductive RoundsInTurn (condition body : Code) :
    Nat → Machine → Code → Machine → Code → Machine → Prop
  | body {fuel m test m₁} (hcondition : sub condition scope m = .done test m₁)
      (htest : test.isFalse = false) :
      RoundsInTurn condition body (fuel + 1) m condition m body m₁
  | fromCondition {fuel m test m₁ value m₂ e m'}
      (hcondition : sub condition scope m = .done test m₁) (htest : test.isFalse = false)
      (hbody : sub body scope m₁ = .done value m₂)
      (h : AsksRound sub scope condition body fuel m₂ e m') :
      RoundsInTurn condition body (fuel + 1) m condition m e m'
  | fromBody {fuel m test m₁ value m₂ e m'} (hcondition : sub condition scope m = .done test m₁)
      (htest : test.isFalse = false) (hbody : sub body scope m₁ = .done value m₂)
      (h : AsksRound sub scope condition body fuel m₂ e m') :
      RoundsInTurn condition body (fuel + 1) m body m₁ e m'
  | again {fuel m test m₁ value m₂ e m' f m''}
      (hcondition : sub condition scope m = .done test m₁) (htest : test.isFalse = false)
      (hbody : sub body scope m₁ = .done value m₂)
      (h : RoundsInTurn condition body fuel m₂ e m' f m'') :
      RoundsInTurn condition body (fuel + 1) m e m' f m''

/-- Of two parts of an expression that is evaluated on `m`, the first one is evaluated before the
second. -/
inductive PartsInTurn (fuel : Nat) (m : Machine) :
    Code → Code → Machine → Code → Machine → Prop
  | operands {s op left right a m₁} (hleft : sub left scope m = .done a m₁)
      (hdecides : decides op a = false) :
      PartsInTurn fuel m (.binary s op left right) left m right m₁
  | thenOnly {s condition thenBranch test m₁} (hcondition : sub condition scope m = .done test m₁)
      (htest : test.isFalse = false) :
      PartsInTurn fuel m (.ifThen s condition thenBranch) condition m thenBranch m₁
  | thenBranch {s condition thenBranch elseBranch test m₁}
      (hcondition : sub condition scope m = .done test m₁) (htest : test.isFalse = false) :
      PartsInTurn fuel m (.ifElse s condition thenBranch elseBranch) condition m thenBranch m₁
  | elseBranch {s condition thenBranch elseBranch test m₁}
      (hcondition : sub condition scope m = .done test m₁) (htest : test.isFalse = true) :
      PartsInTurn fuel m (.ifElse s condition thenBranch elseBranch) condition m elseBranch m₁
  | rounds {s condition body e m' f m''}
      (h : RoundsInTurn sub scope condition body fuel m e m' f m'') :
      PartsInTurn fuel m (.loop s condition body) e m' f m''
  | items {s items e m' f m''} (h : ItemsInTurn sub scope items m e m' f m'') :
      PartsInTurn fuel m (.seq s items) e m' f m''
  | calleeArg {s callee args f m₁ e m'} (hcallee : sub callee scope m = .done f m₁)
      (h : AsksItem sub scope args m₁ e m') :
      PartsInTurn fuel m (.call s callee args) callee m e m'
  | args {s callee args g m₁ e m' f m''} (hcallee : sub callee scope m = .done g m₁)
      (h : ItemsInTurn sub scope args m₁ e m' f m'') :
      PartsInTurn fuel m (.call s callee args) e m' f m''

end

/-- Of two calls that a moment makes, the first one ends before the second begins. A body is
entered when all parts have been evaluated. -/
inductive InTurn (ctx : Context) : Moment → Moment → Moment → Prop
  | parts {active fuel e scope m e₁ m₁ e₂ m₂}
      (h : PartsInTurn (eval ctx fuel) scope fuel m e e₁ m₁ e₂ m₂) :
      InTurn ctx ⟨active, fuel + 1, e, scope, m⟩ ⟨active, fuel, e₁, scope, m₁⟩
        ⟨active, fuel, e₂, scope, m₂⟩
  | body {active fuel e scope m e' m' c inner m''}
      (hask : Asks (eval ctx fuel) scope fuel m e e' m')
      (henter : Enters ctx (eval ctx fuel) scope m e c inner m'') :
      InTurn ctx ⟨active, fuel + 1, e, scope, m⟩ ⟨active, fuel, e', scope, m'⟩
        ⟨c.label :: active, fuel, c.body, inner, m''⟩

section
variable {ctx : Context} {sub : Evaluator} {scope : ScopeId} {fuel : Nat} {m m₁ m₂ : Machine}
  {e e₁ e₂ : Code}

theorem ItemsInTurn.asks {items : List Code} (h : ItemsInTurn sub scope items m e₁ m₁ e₂ m₂) :
    AsksItem sub scope items m e₁ m₁ ∧ AsksItem sub scope items m e₂ m₂ := by
  induction h with
  | head hitem h => exact ⟨.head, .tail hitem h⟩
  | tail hitem _ ih => exact ⟨.tail hitem ih.1, .tail hitem ih.2⟩

theorem RoundsInTurn.asks {condition body : Code}
    (h : RoundsInTurn sub scope condition body fuel m e₁ m₁ e₂ m₂) :
    AsksRound sub scope condition body fuel m e₁ m₁ ∧
      AsksRound sub scope condition body fuel m e₂ m₂ := by
  induction h with
  | body hcondition htest => exact ⟨.condition, .body hcondition htest⟩
  | fromCondition hcondition htest hbody h => exact ⟨.condition, .again hcondition htest hbody h⟩
  | fromBody hcondition htest hbody h =>
    exact ⟨.body hcondition htest, .again hcondition htest hbody h⟩
  | again hcondition htest hbody _ ih =>
    exact ⟨.again hcondition htest hbody ih.1, .again hcondition htest hbody ih.2⟩

theorem PartsInTurn.asks (h : PartsInTurn sub scope fuel m e e₁ m₁ e₂ m₂) :
    Asks sub scope fuel m e e₁ m₁ ∧ Asks sub scope fuel m e e₂ m₂ := by
  cases h with
  | operands hleft hdecides => exact ⟨.left, .right hleft hdecides⟩
  | thenOnly hcondition htest => exact ⟨.ifOnly, .thenOnly hcondition htest⟩
  | thenBranch hcondition htest => exact ⟨.choice, .thenBranch hcondition htest⟩
  | elseBranch hcondition htest => exact ⟨.choice, .elseBranch hcondition htest⟩
  | rounds h => exact ⟨.round h.asks.1, .round h.asks.2⟩
  | items h => exact ⟨.item h.asks.1, .item h.asks.2⟩
  | calleeArg hcallee h => exact ⟨.callee, .arg hcallee h⟩
  | args hcallee h => exact ⟨.arg hcallee h.asks.1, .arg hcallee h.asks.2⟩

/-- Both are calls of the moment. -/
theorem InTurn.calls {p x y : Moment} (h : InTurn ctx p x y) : Calls ctx p x ∧ Calls ctx p y := by
  cases h with
  | parts h => exact ⟨.part h.asks.1, .part h.asks.2⟩
  | body hask henter => exact ⟨.part hask, .body henter⟩

end

/-! ## Going on -/

/-- Evaluation drops no scope. -/
def growing (ctx : Context) : Discipline ctx where
  Holds _ := True
  Fits _ _ := True
  Leads m m' := m.store.scopes.size ≤ m'.store.scopes.size
  leads_refl _ := Nat.le_refl _
  leads_trans := Nat.le_trans
  fits_of_leads _ _ := trivial
  part _ _ _ := trivial
  enter {_ _ _ _ _ _ _ c values m₁ _ _} _ _ _ _ _ _ henter := by
    rw [enterScope_apply] at henter
    cases henter
    exact ⟨trivial, fun _ => Nat.le_trans (extends_entered 0 m₁.store c values).size_le⟩
  read _ _ := trivial
  assign _ _ _ _ _ := Nat.le_of_eq size_define.symm
  lambda _ := trivial
  printLine _ := Nat.le_refl _
  writeFile _ _ := Nat.le_refl _

theorem growing_keeps (ctx : Context) (fuel : Nat) (e : Code) (scope : ScopeId) (m : Machine) :
    (growing ctx).Keeps m (eval ctx fuel e scope m) :=
  (growing ctx).keeps (p := ⟨[], fuel, e, scope, m⟩) trivial

/-- The computation drops no scope. -/
def Eval.KeepsScopes {α : Type} (x : Eval α) : Prop :=
  ∀ m, (x m).Keeps (fun m m' => m.store.scopes.size ≤ m'.store.scopes.size) (fun _ _ => True) m

theorem Eval.KeepsScopes.le {α : Type} {x : Eval α} (h : x.KeepsScopes) {m m' : Machine} {a : α}
    (hx : x m = .done a m') : m.store.scopes.size ≤ m'.store.scopes.size :=
  ((h m).of_done hx).1

section
variable {ctx : Context} {scope : ScopeId} {fuel : Nat} {m m₁ m₂ : Machine} {e e' : Code}

theorem Eval.KeepsScopes.of_keeps {x : Eval Value} (h : ∀ m, (growing ctx).Keeps m (x m)) :
    x.KeepsScopes :=
  fun m => (h m).imp (fun _ hle => hle) fun _ _ _ _ => trivial

theorem keepsScopes_eval (ctx : Context) (fuel : Nat) (e : Code) (scope : ScopeId) :
    (eval ctx fuel e scope).KeepsScopes :=
  .of_keeps (growing_keeps ctx fuel e scope)

theorem keepsScopes_pure {α : Type} (a : α) : (pure a : Eval α).KeepsScopes :=
  fun _ => ⟨Nat.le_refl _, trivial⟩

theorem Eval.KeepsScopes.bind {α β : Type} {x : Eval α} {f : α → Eval β} (hx : x.KeepsScopes)
    (hf : ∀ a, (f a).KeepsScopes) : (x >>= f).KeepsScopes :=
  fun m => (growing ⟨.fresh, 0⟩).keeps_bind (hx m) fun a m₁ _ _ _ => hf a m₁

theorem Eval.KeepsScopes.ite {α : Type} {p : Prop} [Decidable p] {x y : Eval α} (hx : x.KeepsScopes)
    (hy : y.KeepsScopes) : (if p then x else y).KeepsScopes := by
  split
  · exact hx
  · exact hy

theorem keepsScopes_setVariable (ctx : Context) (scope : ScopeId) (x : Name) (v : Value) :
    (setVariable ctx scope x v).KeepsScopes := by
  intro m
  rw [setVariable]
  split
  · exact ⟨Nat.le_of_eq size_define.symm, trivial⟩
  · exact Nat.le_refl _

theorem keepsScopes_ofExcept (r : Except RuntimeFault Value) : (Eval.ofExcept r).KeepsScopes := by
  cases r with
  | ok v => exact keepsScopes_pure v
  | error fault => exact fun m => Nat.le_refl _

theorem keepsScopes_callValue (ctx : Context) (fuel : Nat) (callee : Value) (args : List Value) :
    (callValue ctx (eval ctx fuel) callee args).KeepsScopes := by
  refine .of_keeps fun m => (growing ctx).keeps_callValue fun c inner m' _ _ henter => ?_
  rw [enterScope_apply] at henter
  cases henter
  refine ⟨growing_keeps ctx fuel c.body _ _, fun m'' => ?_⟩
  exact Nat.le_trans (extends_entered 0 m.store c args).size_le

theorem keepsScopes_evalSeq (ctx : Context) (fuel : Nat) (scope : ScopeId) (last : Value)
    (items : List Code) : (evalSeq (eval ctx fuel) scope last items).KeepsScopes := by
  induction items generalizing last with
  | nil => exact keepsScopes_pure last
  | cons item items ih => exact (keepsScopes_eval ctx fuel item scope).bind ih

theorem keepsScopes_evalArgs (ctx : Context) (fuel : Nat) (scope : ScopeId) (before : List Value)
    (args : List Code) : (evalArgs (eval ctx fuel) scope before args).KeepsScopes := by
  induction args generalizing before with
  | nil => exact keepsScopes_pure _
  | cons arg args ih => exact (keepsScopes_eval ctx fuel arg scope).bind fun v => ih (v :: before)

theorem keepsScopes_evalLoop (ctx : Context) (fuel : Nat) (scope : ScopeId) (condition body : Code)
    (rounds : Nat) (last : Value) :
    (evalLoop (eval ctx fuel) scope condition body rounds last).KeepsScopes := by
  induction rounds generalizing last with
  | zero => exact fun _ => trivial
  | succ rounds ih =>
    apply (keepsScopes_eval ctx fuel condition scope).bind
    intro test
    exact .ite (keepsScopes_pure last) ((keepsScopes_eval ctx fuel body scope).bind ih)

end

/-- On `m` the computation evaluates the part `e` on `m₁` and then goes on. -/
def GoesOn {α : Type} (sub : Evaluator) (scope : ScopeId) (x : Eval α) (m : Machine) (e : Code)
    (m₁ : Machine) : Prop :=
  ∃ rest : Value → Eval α, x m = (sub e scope >>= rest) m₁ ∧ ∀ v, (rest v).KeepsScopes

namespace GoesOn

variable {α β : Type} {sub : Evaluator} {scope : ScopeId} {x : Eval α} {f : α → Eval β}
  {rest : Value → Eval α} {m m₁ m₂ : Machine} {e : Code} {a : α}

/-- The part comes first. -/
theorem first (h : ∀ v, (rest v).KeepsScopes) : GoesOn sub scope (sub e scope >>= rest) m e m :=
  ⟨rest, rfl, h⟩

/-- There is nothing else. -/
theorem only : GoesOn sub scope (sub e scope) m e m :=
  ⟨pure, by rw [bind_pure], keepsScopes_pure⟩

/-- The part comes after a step. -/
theorem behind (hx : x m = .done a m₁) (h : GoesOn sub scope (f a) m₁ e m₂) :
    GoesOn sub scope (x >>= f) m e m₂ := by
  obtain ⟨rest, hrest, hkeeps⟩ := h
  refine ⟨rest, ?_, hkeeps⟩
  rw [Run.bind_apply, hx]
  exact hrest

/-- The part comes before a step. -/
theorem bind (h : GoesOn sub scope x m e m₁) (hf : ∀ a, (f a).KeepsScopes) :
    GoesOn sub scope (x >>= f) m e m₁ := by
  obtain ⟨rest, hrest, hkeeps⟩ := h
  refine ⟨fun v => rest v >>= f, ?_, fun v => (hkeeps v).bind hf⟩
  rw [← Run.bind_assoc_eq, Run.bind_apply, hrest, ← Run.bind_apply]

/-- If the whole has a value, so has the part, and before the whole. -/
theorem ended (h : GoesOn sub scope x m e m₁) (hx : x m = .done a m₂) :
    ∃ v m', sub e scope m₁ = .done v m' ∧ m'.store.scopes.size ≤ m₂.store.scopes.size := by
  obtain ⟨rest, hrest, hkeeps⟩ := h
  rw [hrest, Run.bind_apply] at hx
  cases hpart : sub e scope m₁ with
  | done v m' =>
    rw [hpart] at hx
    exact ⟨v, m', rfl, (hkeeps v).le hx⟩
  | failed | unfinished =>
    rw [hpart] at hx
    contradiction

end GoesOn

section
variable {ctx : Context} {scope : ScopeId} {fuel : Nat} {m m₁ m₂ : Machine} {e e₁ e₂ : Code}

theorem goesOn_evalSeq {items : List Code} (last : Value)
    (h : AsksItem (eval ctx fuel) scope items m e m₁) :
    GoesOn (eval ctx fuel) scope (evalSeq (eval ctx fuel) scope last items) m e m₁ := by
  induction h generalizing last with
  | head => exact .first fun v => keepsScopes_evalSeq ctx fuel scope v _
  | tail hitem _ ih => exact .behind hitem (ih _)

theorem goesOn_evalArgs {args : List Code} (before : List Value)
    (h : AsksItem (eval ctx fuel) scope args m e m₁) :
    GoesOn (eval ctx fuel) scope (evalArgs (eval ctx fuel) scope before args) m e m₁ := by
  induction h generalizing before with
  | head => exact .first fun v => keepsScopes_evalArgs ctx fuel scope (v :: before) _
  | tail hitem _ ih => exact .behind hitem (ih _)

theorem goesOn_evalLoop {condition body : Code} {rounds : Nat} (last : Value)
    (h : AsksRound (eval ctx fuel) scope condition body rounds m e m₁) :
    GoesOn (eval ctx fuel) scope (evalLoop (eval ctx fuel) scope condition body rounds last) m e
      m₁ := by
  induction h generalizing last with
  | condition =>
    refine .first fun test => .ite (keepsScopes_pure last) ?_
    exact (keepsScopes_eval ctx fuel body scope).bind fun v =>
      keepsScopes_evalLoop ctx fuel scope _ _ _ v
  | body hcondition htest =>
    refine .behind hcondition ?_
    rw [htest, if_neg Bool.false_ne_true]
    exact .first fun v => keepsScopes_evalLoop ctx fuel scope _ _ _ v
  | again hcondition htest hbody _ ih =>
    refine .behind hcondition ?_
    rw [htest, if_neg Bool.false_ne_true]
    exact .behind hbody (ih _)

/-- An expression goes on behind each of its parts. -/
theorem goesOn_evalNode (h : Asks (eval ctx fuel) scope fuel m e e₁ m₁) :
    GoesOn (eval ctx fuel) scope (evalNode ctx (eval ctx fuel) fuel scope e) m e₁ m₁ := by
  cases h with
  | value => exact .first fun v => keepsScopes_setVariable ctx scope _ v
  | left =>
    refine .first fun a => .ite (keepsScopes_pure a) ?_
    exact (keepsScopes_eval ctx fuel _ scope).bind fun b => keepsScopes_ofExcept _
  | right hleft hdecides =>
    refine .behind hleft ?_
    rw [hdecides, if_neg Bool.false_ne_true]
    exact .first fun b => keepsScopes_ofExcept _
  | ifOnly =>
    exact .first fun test => .ite (keepsScopes_pure _) (keepsScopes_eval ctx fuel _ scope)
  | choice =>
    refine .first fun test => .ite ?_ ?_
    · exact keepsScopes_eval ctx fuel _ scope
    · exact keepsScopes_eval ctx fuel _ scope
  | thenOnly hcondition htest | thenBranch hcondition htest =>
    refine .behind hcondition ?_
    rw [htest, if_neg Bool.false_ne_true]
    exact .only
  | elseBranch hcondition htest =>
    refine .behind hcondition ?_
    rw [htest, if_pos rfl]
    exact .only
  | round h => exact goesOn_evalLoop _ h
  | item h => exact goesOn_evalSeq _ h
  | callee =>
    exact .first fun f =>
      (keepsScopes_evalArgs ctx fuel scope [] _).bind (keepsScopes_callValue ctx fuel f)
  | arg hcallee h =>
    exact .behind hcallee ((goesOn_evalArgs [] h).bind (keepsScopes_callValue ctx fuel _))

/-! ## The end of a call -/

/-- The evaluation has come to a value by the time that there are `size` scopes. -/
def Moment.EndsBy (ctx : Context) (p : Moment) (size : Nat) : Prop :=
  ∃ v m, p.outcome ctx = .done v m ∧ m.store.scopes.size ≤ size

variable {p q x y : Moment} {size : Nat}

theorem Moment.EndsBy.mono (h : p.EndsBy ctx size) {size' : Nat} (hle : size ≤ size') :
    p.EndsBy ctx size' := by
  obtain ⟨v, m, hdone, hsize⟩ := h
  exact ⟨v, m, hdone, Nat.le_trans hsize hle⟩

/-- A body is entered when the parts of the call have ended, in a scope made then. -/
theorem endsBy_of_enters {c : Closure} {inner : ScopeId} (active : List Nat)
    (hask : Asks (eval ctx fuel) scope fuel m e e₁ m₁)
    (henter : Enters ctx (eval ctx fuel) scope m e c inner m₂) :
    (Moment.mk active fuel e₁ scope m₁).EndsBy ctx inner := by
  obtain ⟨hcallee, hargs, -, henter⟩ := henter
  rw [enterScope_apply] at henter
  cases henter
  cases hask with
  | callee => exact ⟨_, _, hcallee, (keepsScopes_evalArgs ctx fuel scope [] _).le hargs⟩
  | arg hcallee' harg =>
    rw [hcallee] at hcallee'
    cases hcallee'
    exact (goesOn_evalArgs [] harg).ended hargs

/-- When the evaluation of a call has a value, so has the body that it enters. -/
theorem endsBy_of_evalNode {c : Closure} {inner : ScopeId} {v : Value} {m' : Machine}
    (active : List Nat) (henter : Enters ctx (eval ctx fuel) scope m e c inner m₁)
    (hnode : evalNode ctx (eval ctx fuel) fuel scope e m = .done v m') :
    (Moment.mk active fuel c.body inner m₁).EndsBy ctx m'.store.scopes.size := by
  obtain ⟨hcallee, hargs, hdepth, henter⟩ := henter
  simp only [evalNode, evalCall, Run.bind_apply, hcallee, hargs, callValue, callClosure,
    Run.get] at hnode
  rw [if_neg (Nat.not_le_of_lt hdepth), Run.bind_apply, henter] at hnode
  simp only [Eval.deeper] at hnode
  unfold Moment.EndsBy Moment.outcome
  cases hbody : eval ctx fuel c.body inner (Machine.enter _) with
  | done v₁ m₂ =>
    rw [hbody] at hnode
    cases hnode
    exact ⟨_, _, rfl, Nat.le_refl _⟩
  | failed | unfinished =>
    rw [hbody] at hnode
    contradiction

/-- What is called by an evaluation that has ended has ended before. -/
theorem Moment.EndsBy.calls (h : p.EndsBy ctx size) (hcalls : Calls ctx p q) :
    q.EndsBy ctx size := by
  obtain ⟨v, m, hdone, hsize⟩ := h
  -- the value is that of the expression, which goes on behind all that it calls
  have hnode {active fuel e scope m₀} (hp : p = ⟨active, fuel + 1, e, scope, m₀⟩) :
      evalNode ctx (eval ctx fuel) fuel scope e m₀ = .done v m := by
    subst hp
    simp only [Moment.outcome, eval, Run.mapError] at hdone
    cases hresult : evalNode ctx (eval ctx fuel) fuel scope e m₀ <;> rw [hresult] at hdone <;>
      cases hdone
    rfl
  cases hcalls with
  | part hask =>
    obtain ⟨v', m', hpart, hle⟩ := (goesOn_evalNode hask).ended (hnode rfl)
    exact ⟨v', m', hpart, Nat.le_trans hle hsize⟩
  | body henter => exact (endsBy_of_evalNode _ henter (hnode rfl)).mono hsize

theorem Moment.EndsBy.reaches (h : p.EndsBy ctx size) (hreaches : Reaches ctx p q) :
    q.EndsBy ctx size := by
  induction hreaches with
  | refl => exact h
  | tail _ hcalls ih => exact ih.calls hcalls

/-! ## The next call -/

theorem le_of_asksItem {items : List Code} (h : AsksItem (eval ctx fuel) scope items m e m₁) :
    m.store.scopes.size ≤ m₁.store.scopes.size :=
  (growing ctx).leads_of_asksItem (fun e m' _ _ => growing_keeps ctx fuel e scope m') h

theorem le_of_asksRound {condition body : Code} {rounds : Nat}
    (h : AsksRound (eval ctx fuel) scope condition body rounds m e m₁) :
    m.store.scopes.size ≤ m₁.store.scopes.size :=
  (growing ctx).leads_of_asksRound (fun e m' _ _ => growing_keeps ctx fuel e scope m') h

theorem ItemsInTurn.ended {items : List Code}
    (h : ItemsInTurn (eval ctx fuel) scope items m e₁ m₁ e₂ m₂) :
    ∃ v m', eval ctx fuel e₁ scope m₁ = .done v m' ∧
      m'.store.scopes.size ≤ m₂.store.scopes.size := by
  induction h with
  | head hitem h => exact ⟨_, _, hitem, le_of_asksItem h⟩
  | tail _ _ ih => exact ih

theorem RoundsInTurn.ended {condition body : Code} {rounds : Nat}
    (h : RoundsInTurn (eval ctx fuel) scope condition body rounds m e₁ m₁ e₂ m₂) :
    ∃ v m', eval ctx fuel e₁ scope m₁ = .done v m' ∧
      m'.store.scopes.size ≤ m₂.store.scopes.size := by
  induction h with
  | body hcondition _ => exact ⟨_, _, hcondition, Nat.le_refl _⟩
  | fromCondition hcondition _ hbody h =>
    refine ⟨_, _, hcondition, Nat.le_trans ?_ (le_of_asksRound h)⟩
    exact (keepsScopes_eval ctx fuel _ scope).le hbody
  | fromBody _ _ hbody h => exact ⟨_, _, hbody, le_of_asksRound h⟩
  | again _ _ _ _ ih => exact ih

theorem PartsInTurn.ended (h : PartsInTurn (eval ctx fuel) scope fuel m e e₁ m₁ e₂ m₂) :
    ∃ v m', eval ctx fuel e₁ scope m₁ = .done v m' ∧
      m'.store.scopes.size ≤ m₂.store.scopes.size := by
  cases h with
  | operands hleft _ => exact ⟨_, _, hleft, Nat.le_refl _⟩
  | thenOnly hcondition _ | thenBranch hcondition _ | elseBranch hcondition _ =>
    exact ⟨_, _, hcondition, Nat.le_refl _⟩
  | rounds h => exact h.ended
  | items h | args _ h => exact h.ended
  | calleeArg hcallee h => exact ⟨_, _, hcallee, le_of_asksItem h⟩

theorem le_of_asks (h : Asks (eval ctx fuel) scope fuel m e e₁ m₁) :
    m.store.scopes.size ≤ m₁.store.scopes.size :=
  (growing ctx).leads_of_asks (fun e m' _ _ => growing_keeps ctx fuel e scope m') h

/-- The scope of a body is made after all that were there. -/
theorem le_of_enters {c : Closure} {inner : ScopeId}
    (h : Enters ctx (eval ctx fuel) scope m e c inner m₁) :
    m.store.scopes.size ≤ inner ∧ inner < m₁.store.scopes.size := by
  have hstart : (growing ctx).Holds ⟨[], fuel + 1, e, scope, m⟩ := trivial
  obtain ⟨values, m₂, m₃, hle, -, -, henter, rfl⟩ := (growing ctx).fits_of_enters hstart h
  rw [enterScope_apply] at henter
  cases henter
  refine ⟨hle, ?_⟩
  rw [Machine.enter, size_entered]
  exact Nat.lt_succ_self _

/-- Of two calls in turn the first one has ended when the second one begins. -/
theorem InTurn.endsBy (h : InTurn ctx p x y) : x.EndsBy ctx y.machine.store.scopes.size := by
  cases h with
  | parts h => exact h.ended
  | body hask henter =>
    exact (endsBy_of_enters _ hask henter).mono (Nat.le_of_lt (le_of_enters henter).2)

end
end LambdaScript
