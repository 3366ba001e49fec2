import LambdaScript.Proofs.Following
import LambdaScript.Proofs.Scoping
/-!
# One run follows another, moment by moment

Where a translation adds no fuel, the second run reaches a moment for each one that the first run
reaches (`Translation.reaches`), and raises the same faults there if the limits are the same
(`Translation.raises`). The expression evaluated there stands at the same place of the programs
(`Within.renamed`).
-/

namespace LambdaScript

namespace Translation

variable {ctx ctx' : Context} {T : Translation ctx ctx'}

/-- The second run is about to evaluate what the first one is about to evaluate. -/
inductive Moments (T : Translation ctx ctx') : Moment → Moment → Prop where
  | moment {active : List Nat} {fuel : Nat} {e : Code} {scope : ScopeId} {m m' : Machine}
      (hm : T.Machines m m') :
      Moments T ⟨active, fuel, e, scope, m⟩ ⟨active, fuel, T.expr e, scope, m'⟩

theorem Moments.code_eq {p p' : Moment} (h : T.Moments p p') : p'.code = T.expr p.code := by
  cases h
  rfl

theorem Moments.active_eq {p p' : Moment} (h : T.Moments p p') : p'.active = p.active := by
  cases h
  rfl

section
variable {α β : Type} {h : α → β} {x : Eval α} {x' : Eval β} {m m₁ m' : Machine} {a : α}

/-- A first step that succeeds is followed by a second one that does. -/
theorem Imitates.of_done (himitates : T.Imitates h x x') (hm : T.Machines m m')
    (hx : x m = .done a m₁) : ∃ m₁', x' m' = .done (h a) m₁' ∧ T.Machines m₁ m₁' := by
  have hfollows := himitates m m' hm
  rw [hx] at hfollows
  generalize x' m' = o at hfollows
  cases hfollows with
  | done hm => exact ⟨_, rfl, hm⟩

end

/-! ## What is asked for -/

section
variable {sub sub' : Evaluator} {scope : ScopeId}
  (hsub : ∀ e scope, T.Imitates T.value (sub e scope) (sub' (T.expr e) scope))
  (hgrows : sub'.Grows)
include hsub

theorem asksItem {items : List Code} {m m₁ m' : Machine} {e : Code}
    (h : AsksItem sub scope items m e m₁) (hm : T.Machines m m') :
    ∃ m₁', AsksItem sub' scope (T.exprs items) m' (T.expr e) m₁' ∧ T.Machines m₁ m₁' := by
  induction h generalizing m' with
  | head => exact ⟨m', .head, hm⟩
  | tail hitem _ ih =>
    obtain ⟨m₂, hitem', hm₂⟩ := (hsub _ scope).of_done hm hitem
    obtain ⟨m₁', hask, hm₁⟩ := ih hm₂
    exact ⟨m₁', .tail hitem' hask, hm₁⟩

theorem asksRound {condition body : Code} {fuel : Nat} {m m₁ m' : Machine} {e : Code}
    (h : AsksRound sub scope condition body fuel m e m₁) (hm : T.Machines m m') :
    ∃ m₁', AsksRound sub' scope (T.expr condition) (T.expr body) fuel m' (T.expr e) m₁' ∧
      T.Machines m₁ m₁' := by
  induction h generalizing m' with
  | condition => exact ⟨m', .condition, hm⟩
  | body hcondition htest =>
    obtain ⟨m₂, hcondition', hm₂⟩ := (hsub _ scope).of_done hm hcondition
    exact ⟨m₂, .body hcondition' (by rwa [Renaming.isFalse_value]), hm₂⟩
  | again hcondition htest hbody _ ih =>
    obtain ⟨m₂, hcondition', hm₂⟩ := (hsub _ scope).of_done hm hcondition
    obtain ⟨m₃, hbody', hm₃⟩ := (hsub _ scope).of_done hm₂ hbody
    obtain ⟨m₁', hask, hm₁⟩ := ih hm₃
    exact ⟨m₁', .again hcondition' (by rwa [Renaming.isFalse_value]) hbody' hask, hm₁⟩

theorem asks {fuel : Nat} {m m₁ m' : Machine} {e e₁ : Code} (h : Asks sub scope fuel m e e₁ m₁)
    (hm : T.Machines m m') :
    ∃ m₁', Asks sub' scope fuel m' (T.expr e) (T.expr e₁) m₁' ∧ T.Machines m₁ m₁' := by
  cases h with
  | value => exact ⟨m', .value, hm⟩
  | left => exact ⟨m', .left, hm⟩
  | right hleft hdecides =>
    obtain ⟨m₂, hleft', hm₂⟩ := (hsub _ scope).of_done hm hleft
    refine ⟨m₂, .right hleft' ?_, hm₂⟩
    rwa [decides, Renaming.isFalse_value]
  | ifOnly => exact ⟨m', .ifOnly, hm⟩
  | thenOnly hcondition htest =>
    obtain ⟨m₂, hcondition', hm₂⟩ := (hsub _ scope).of_done hm hcondition
    exact ⟨m₂, .thenOnly hcondition' (by rwa [Renaming.isFalse_value]), hm₂⟩
  | choice => exact ⟨m', .choice, hm⟩
  | thenBranch hcondition htest =>
    obtain ⟨m₂, hcondition', hm₂⟩ := (hsub _ scope).of_done hm hcondition
    exact ⟨m₂, .thenBranch hcondition' (by rwa [Renaming.isFalse_value]), hm₂⟩
  | elseBranch hcondition htest =>
    obtain ⟨m₂, hcondition', hm₂⟩ := (hsub _ scope).of_done hm hcondition
    exact ⟨m₂, .elseBranch hcondition' (by rwa [Renaming.isFalse_value]), hm₂⟩
  | round h =>
    obtain ⟨m₁', hask, hm₁⟩ := asksRound hsub h hm
    exact ⟨m₁', .round hask, hm₁⟩
  | item h =>
    obtain ⟨m₁', hask, hm₁⟩ := asksItem hsub h hm
    exact ⟨m₁', .item hask, hm₁⟩
  | callee => exact ⟨m', .callee, hm⟩
  | arg hcallee h =>
    obtain ⟨m₂, hcallee', hm₂⟩ := (hsub _ scope).of_done hm hcallee
    obtain ⟨m₁', hask, hm₁⟩ := asksItem hsub h hm₂
    exact ⟨m₁', .arg hcallee' hask, hm₁⟩

include hgrows

theorem enters {m m₁ m' : Machine} {e : Code} {c : Closure} {inner : ScopeId}
    (h : Enters ctx sub scope m e c inner m₁) (hm : T.Machines m m') :
    ∃ m₁', Enters ctx' sub' scope m' (T.expr e) (T.closure c) inner m₁' ∧ T.Machines m₁ m₁' := by
  cases h with
  | call hcallee hargs hdepth henter =>
    obtain ⟨m₂, hcallee', hm₂⟩ := (hsub _ scope).of_done hm hcallee
    obtain ⟨m₃, hargs', hm₃⟩ := (imitates_evalArgs hsub hgrows scope _ []).of_done hm₂ hargs
    obtain ⟨m₄, henter', hm₄⟩ := (imitates_enterScope _ _).of_done hm₃ henter
    have hdepth' : m₃.depth < ctx'.limit :=
      Nat.lt_of_lt_of_le (hm₃.depth ▸ hdepth) T.limit_le
    exact ⟨m₄.enter, .call hcallee' hargs' hdepth' henter',
      ⟨hm₄.store, hm₄.console, hm₄.writes, congrArg (· + 1) hm₄.depth⟩⟩

/-! ## Faults -/

/-- The same faults, if the limits are the same. -/
theorem faults (hlimit : ctx'.limit = ctx.limit) {m m₁ m' : Machine} {e : Code}
    {fault : RuntimeFault} (h : Faults ctx sub scope m e fault m₁) (hm : T.Machines m m') :
    ∃ m₁', Faults ctx' sub' scope m' (T.expr e) fault m₁' := by
  cases h with
  | @var s x hget =>
    have hget' : m'.store.get scope (T.name x) = none := by
      rw [hm.store.get, hget]
      rfl
    rw [← T.respells]
    exact ⟨m', .var hget'⟩
  | @assign s x value v _ hvalue htarget =>
    obtain ⟨m₂, hvalue', hm₂⟩ := (hsub _ scope).of_done hm hvalue
    have htarget' : m₂.store.target? scope (T.name x) = none := by
      rw [hm₂.store.target?, htarget]
    rw [← T.respells]
    exact ⟨m₂, .assign hvalue' htarget'⟩
  | binary hleft hdecides hright hop =>
    obtain ⟨m₂, hleft', hm₂⟩ := (hsub _ scope).of_done hm hleft
    obtain ⟨m₃, hright', hm₃⟩ := (hsub _ scope).of_done hm₂ hright
    refine ⟨m₃, .binary hleft' ?_ hright' ?_⟩
    · rwa [decides, Renaming.isFalse_value]
    · rw [Renaming.binary_value, hop]
      rfl
  | @call s callee args f m₂ values _ _ hcallee hargs hrefuses =>
    obtain ⟨m₂', hcallee', hm₂⟩ := (hsub _ scope).of_done hm hcallee
    obtain ⟨m₃, hargs', hm₃⟩ := (imitates_evalArgs hsub hgrows scope _ []).of_done hm₂ hargs
    refine ⟨m₃, .call hcallee' hargs' ?_⟩
    cases hrefuses with
    | notCallable hf =>
      rw [← T.kind_value]
      refine .notCallable fun g hg => ?_
      cases f with
      | function f => exact hf f rfl
      | number | string | bool => cases hg
    | length hstring =>
      have hkind : (values.map T.value).head?.map Value.kind = values.head?.map Value.kind := by
        cases values with
        | nil => rfl
        | cons v values => exact congrArg some (T.kind_value v)
      rw [← hkind]
      refine .length fun s hs => ?_
      rcases values with _ | ⟨v, values⟩
      · cases hs
      · cases v with
        | string s => exact hstring s rfl
        | number | bool => cases hs
        | function f => cases f <;> cases hs
    | overflow hdepth =>
      rw [← hlimit]
      exact .overflow (by rw [hlimit, hm₃.depth]; exact hdepth)

end

/-! ## Moments -/

section
variable (hextra : T.extra = 0) {p q p' : Moment} {fault : RuntimeFault} {m : Machine}
include hextra

theorem imitates_same (fuel : Nat) (e : Code) (scope : ScopeId) :
    T.Imitates T.value (eval ctx fuel e scope) (eval ctx' fuel (T.expr e) scope) := by
  have himitates := T.imitates_eval fuel e scope
  rwa [hextra, Nat.add_zero] at himitates

/-- The second run comes to the end of the first one, translated. -/
theorem follows_outcome (hp : T.Moments p p') :
    T.Follows T.value (p.outcome ctx) (p'.outcome ctx') := by
  obtain ⟨hm⟩ := hp
  exact imitates_same hextra _ _ _ _ _ hm

theorem calls (h : Calls ctx p q) (hp : T.Moments p p') :
    ∃ q', Calls ctx' p' q' ∧ T.Moments q q' := by
  obtain ⟨hm⟩ := hp
  cases h with
  | part hask =>
    obtain ⟨m₁, hask', hm₁⟩ := asks (imitates_same hextra _) hask hm
    exact ⟨_, .part hask', .moment hm₁⟩
  | body henter =>
    obtain ⟨m₁, henter', hm₁⟩ := enters (imitates_same hextra _) (grows_eval ctx' _) henter hm
    exact ⟨_, .body henter', .moment hm₁⟩

/-- The second run reaches what the first one reaches. -/
theorem reaches (h : Reaches ctx p q) (hp : T.Moments p p') :
    ∃ q', Reaches ctx' p' q' ∧ T.Moments q q' := by
  induction h with
  | refl => exact ⟨p', .refl, hp⟩
  | tail _ hcall ih =>
    obtain ⟨q', hreaches, hq⟩ := ih
    obtain ⟨r', hcall', hr⟩ := calls hextra hcall hq
    exact ⟨r', hreaches.tail hcall', hr⟩

/-- It raises the same faults, if the limits are the same. -/
theorem raises (hlimit : ctx'.limit = ctx.limit) (h : p.Raises ctx fault m)
    (hp : T.Moments p p') : ∃ m', p'.Raises ctx' fault m' := by
  obtain ⟨hm⟩ := hp
  obtain ⟨fuel, rfl, hfaults⟩ := h
  obtain ⟨m', hfaults'⟩ :=
    faults (imitates_same hextra fuel) (grows_eval ctx' fuel) hlimit hfaults hm
  exact ⟨m', fuel, rfl, hfaults'⟩

end

end Translation

/-! ## Places -/

namespace Renaming

variable {ι : Type} (r : Renaming)

/-- A lambda node with other names. -/
def binder (b : Binder) : Binder := ⟨b.label, b.params.map r.name⟩

theorem label_head?_binder (around : List Binder) :
    (around.map r.binder).head?.map (·.label) = around.head?.map (·.label) := by
  cases around <;> rfl

theorem parts_expr (e : Expr ι) : (r.expr e).parts = e.parts.map r.expr := by
  cases e with
  | seq | call => simp [expr, Expr.parts, exprs_eq_map]
  | _ => rfl

end Renaming

/-- The parts of a program stand at the same places under other names and spans. -/
theorem Within.renamed (r : Renaming) {root e : Code} {around : List Binder}
    (h : Within root around e) : Within (r.expr root) (around.map r.binder) (r.expr e) := by
  induction h with
  | root => exact .root
  | part _ hpart ih =>
    refine .part ih ?_
    rw [r.parts_expr]
    exact List.mem_map_of_mem hpart
  | body _ ih => exact .body ih

end LambdaScript
