import LambdaScript.Proofs.Moments
/-!
# Disciplines

A `Discipline` is a property that evaluation keeps from step to step: what holds at every moment,
which closures fit a store, and how a machine may develop. Its fields are about single steps.
`Discipline.keeps` follows whole evaluations, and `Discipline.holds` all the moments they reach.
-/

namespace LambdaScript

/-- Whether it ends in a value or in an error, the state has developed along `R`; `Q` holds of a
value. -/
def Outcome.Keeps {ε σ α : Type} (R : σ → σ → Prop) (Q : σ → α → Prop) (s : σ) :
    Outcome ε σ α → Prop
  | .done a s' => R s s' ∧ Q s' a
  | .failed _ s' => R s s'
  | .unfinished => True

theorem Outcome.Keeps.of_done {ε σ α : Type} {R : σ → σ → Prop} {Q : σ → α → Prop} {s s' : σ}
    {o : Outcome ε σ α} {a : α} (h : o.Keeps R Q s) (ho : o = .done a s') : R s s' ∧ Q s' a := by
  subst ho
  exact h

theorem Outcome.Keeps.imp {ε σ α : Type} {R R' : σ → σ → Prop} {Q Q' : σ → α → Prop} {s : σ}
    {o : Outcome ε σ α} (h : o.Keeps R Q s) (hstate : ∀ s', R s s' → R' s s')
    (hvalue : ∀ a s', R s s' → Q s' a → Q' s' a) : o.Keeps R' Q' s := by
  cases o with
  | done a s' => exact ⟨hstate s' h.1, hvalue a s' h.1 h.2⟩
  | failed e s' => exact hstate s' h
  | unfinished => trivial

/-- Whether in a value or in an error, the computation ends on `s'`. -/
def Run.EndsOn {ε σ α : Type} (x : Run ε σ α) (s s' : σ) : Prop :=
  (∃ a, x s = .done a s') ∨ ∃ e, x s = .failed e s'

theorem Outcome.Keeps.of_endsOn {ε σ α : Type} {R : σ → σ → Prop} {Q : σ → α → Prop} {s s' : σ}
    {x : Run ε σ α} (h : (x s).Keeps R Q s) (hend : x.EndsOn s s') : R s s' := by
  rcases hend with ⟨a, hend⟩ | ⟨e, hend⟩ <;> rw [hend] at h
  · exact h.1
  · exact h

/-- What single steps of evaluation keep. -/
structure Discipline (ctx : Context) where
  /-- What is known when an expression is about to be evaluated. -/
  Holds : Moment → Prop
  /-- What is known of the closures that are values or bound to names. -/
  Fits : Store → Closure → Prop
  /-- What is known of a machine later in the run. -/
  Leads : Machine → Machine → Prop
  leads_refl : ∀ m, Leads m m
  leads_trans : ∀ {m₁ m₂ m₃}, Leads m₁ m₂ → Leads m₂ m₃ → Leads m₁ m₃
  fits_of_leads : ∀ {m m' c}, Leads m m' → Fits m.store c → Fits m'.store c
  part : ∀ {active fuel e scope m e' m'}, Holds ⟨active, fuel + 1, e, scope, m⟩ →
    Asks (eval ctx fuel) scope fuel m e e' m' → Leads m m' → Holds ⟨active, fuel, e', scope, m'⟩
  /-- The scope of a body is made on `m₁`; `m₃` is the machine after the body. -/
  enter : ∀ {active fuel s callee args scope m c values m₁ inner m₂},
    Holds ⟨active, fuel + 1, .call s callee args, scope, m⟩ →
    Enters ctx (eval ctx fuel) scope m (.call s callee args) c inner m₂.enter → Leads m m₁ →
    Fits m₁.store c → (∀ d, .function (.closure d) ∈ values → Fits m₁.store d) →
    m₁.depth < ctx.limit → enterScope c values m₁ = .done inner m₂ →
      Holds ⟨c.label :: active, fuel, c.body, inner, m₂.enter⟩ ∧
        ∀ m₃, Leads m₂.enter m₃ → Leads m₁ m₃.leave
  read : ∀ {active fuel s x scope m c}, Holds ⟨active, fuel + 1, .var s x, scope, m⟩ →
    m.store.get scope x = some (.function (.closure c)) → Fits m.store c
  assign : ∀ {active fuel s x value scope m v m' found},
    Holds ⟨active, fuel + 1, .assign s x value, scope, m⟩ →
    eval ctx fuel value scope m = .done v m' → Leads m m' →
    (∀ c, v = .function (.closure c) → Fits m'.store c) → m'.store.target? scope x = some found →
      Leads m' (m'.define found x v)
  lambda : ∀ {active fuel s label params body scope m},
    Holds ⟨active, fuel + 1, .lambda s label params body, scope, m⟩ →
      Fits m.store ⟨label, params, body, scope⟩
  printLine : ∀ {m} line, Leads m (m.printLine line)
  writeFile : ∀ {m} path contents, Leads m (m.writeFile path contents)

/-- Operators make no functions. -/
theorem Value.eq_of_binary_function {op : BinaryOp} {a b : Value} {f : Callable}
    (h : Value.binary op a b = .ok (.function f)) : a = .function f ∨ b = .function f := by
  cases op with
  | add => cases a <;> cases b <;> cases h
  | sub | mul =>
    simp only [binary] at h
    cases hn : numbers _ a b <;> rw [hn] at h <;> cases h
  | div | mod =>
    simp only [binary] at h
    cases hn : dividends _ a b <;> rw [hn] at h <;> cases h
  | lt | le | gt | ge =>
    simp only [binary, order] at h
    cases hc : compare? a b <;> rw [hc] at h <;> cases h
  | eq | ne => cases h
  | and =>
    simp only [binary, Except.ok.injEq] at h
    split at h
    · exact .inl h
    · exact .inr h
  | or =>
    simp only [binary, Except.ok.injEq] at h
    split at h
    · exact .inr h
    · exact .inl h

namespace Discipline

variable {ctx : Context} (D : Discipline ctx)

/-- A value that is a closure fits. -/
def FitsValue (m : Machine) (v : Value) : Prop := ∀ c, v = .function (.closure c) → D.Fits m.store c

theorem fitsValue_of_leads {m m' : Machine} {v : Value} (h : D.Leads m m')
    (hv : D.FitsValue m v) : D.FitsValue m' v :=
  fun c hc => D.fits_of_leads h (hv c hc)

theorem fitsValue_number (m : Machine) (x : Float) : D.FitsValue m (.number x) := by
  intro c hc
  cases hc

theorem fitsValue_string (m : Machine) (s : String) : D.FitsValue m (.string s) := by
  intro c hc
  cases hc

theorem fitsValue_bool (m : Machine) (b : Bool) : D.FitsValue m (.bool b) := by
  intro c hc
  cases hc

/-- An evaluation keeps to the discipline, whichever way it ends. -/
abbrev Keeps (m : Machine) (o : Outcome RuntimeError Machine Value) : Prop :=
  o.Keeps D.Leads D.FitsValue m

/-- Two steps keep to the discipline if the first one does, and the second one on what comes out of
the first. -/
theorem keeps_bind {α β : Type} {P : Machine → α → Prop} {Q : Machine → β → Prop} {x : Eval α}
    {f : α → Eval β} {m : Machine} (hx : (x m).Keeps D.Leads P m)
    (hf : ∀ a m₁, x m = .done a m₁ → D.Leads m m₁ → P m₁ a → (f a m₁).Keeps D.Leads Q m₁) :
    ((x >>= f) m).Keeps D.Leads Q m := by
  rw [Run.bind_apply]
  cases hresult : x m with
  | done a m₁ =>
    rw [hresult] at hx
    have hrest := hf a m₁ hresult hx.1 hx.2
    simp only
    cases hnext : f a m₁ with
    | done b m₂ =>
      rw [hnext] at hrest
      exact ⟨D.leads_trans hx.1 hrest.1, hrest.2⟩
    | failed e m₂ =>
      rw [hnext] at hrest
      exact D.leads_trans hx.1 hrest
    | unfinished => trivial
  | failed e m₁ =>
    rw [hresult] at hx
    exact hx
  | unfinished => trivial

/-! ## Lists and loops -/

section
variable {D} {sub : Evaluator} {scope : ScopeId}

theorem keeps_evalSeq {items : List Code} {last : Value} {m : Machine}
    (hsub : ∀ e m', AsksItem sub scope items m e m' → D.Leads m m' → D.Keeps m' (sub e scope m'))
    (hlast : D.FitsValue m last) : D.Keeps m (evalSeq sub scope last items m) := by
  induction items generalizing last m with
  | nil => exact ⟨D.leads_refl m, hlast⟩
  | cons item items ih =>
    rw [evalSeq]
    apply D.keeps_bind (hsub item m .head (D.leads_refl m))
    intro value m₁ hitem hleads hvalue
    refine ih ?_ hvalue
    intro e m' hask hlater
    exact hsub e m' (.tail hitem hask) (D.leads_trans hleads hlater)

theorem keeps_evalArgs (before : List Value) {args : List Code} {m : Machine}
    (hsub : ∀ e m', AsksItem sub scope args m e m' → D.Leads m m' → D.Keeps m' (sub e scope m'))
    (hbefore : ∀ v ∈ before, D.FitsValue m v) :
    (evalArgs sub scope before args m).Keeps D.Leads
      (fun m' values => ∀ v ∈ values, D.FitsValue m' v) m := by
  induction args generalizing before m with
  | nil => exact ⟨D.leads_refl m, fun v hv => hbefore v (List.mem_reverse.mp hv)⟩
  | cons arg args ih =>
    rw [evalArgs]
    apply D.keeps_bind (hsub arg m .head (D.leads_refl m))
    intro value m₁ harg hleads hvalue
    apply ih (value :: before)
    · intro e m' hask hlater
      exact hsub e m' (.tail harg hask) (D.leads_trans hleads hlater)
    · -- the values before were known on an earlier machine
      intro v hv
      rcases List.mem_cons.mp hv with rfl | hv
      · exact hvalue
      · exact D.fitsValue_of_leads hleads (hbefore v hv)

theorem keeps_evalLoop {condition body : Code} {fuel : Nat} {last : Value} {m : Machine}
    (hsub : ∀ e m', AsksRound sub scope condition body fuel m e m' → D.Leads m m' →
      D.Keeps m' (sub e scope m'))
    (hlast : D.FitsValue m last) :
    D.Keeps m (evalLoop sub scope condition body fuel last m) := by
  induction fuel generalizing last m with
  | zero => trivial
  | succ fuel ih =>
    rw [evalLoop]
    apply D.keeps_bind (hsub condition m .condition (D.leads_refl m))
    intro test m₁ hcondition hleads _
    by_cases htest : test.isFalse = true
    · rw [if_pos htest]
      exact ⟨D.leads_refl m₁, D.fitsValue_of_leads hleads hlast⟩
    rw [if_neg htest]
    rw [Bool.not_eq_true] at htest
    apply D.keeps_bind (hsub body m₁ (.body hcondition htest) hleads)
    intro value m₂ hbody hleads' hvalue
    refine ih ?_ hvalue
    intro e m' hask hlater
    exact hsub e m' (.again hcondition htest hbody hask)
      (D.leads_trans (D.leads_trans hleads hleads') hlater)

theorem leads_of_asksItem {items : List Code} {m m' : Machine} {e : Code}
    (hsub : ∀ e m', AsksItem sub scope items m e m' → D.Leads m m' → D.Keeps m' (sub e scope m'))
    (h : AsksItem sub scope items m e m') : D.Leads m m' := by
  induction h with
  | head => exact D.leads_refl _
  | tail hitem _ ih =>
    have hkeeps := (hsub _ _ .head (D.leads_refl _)).of_done hitem
    refine D.leads_trans hkeeps.1 (ih fun e m' hask hlater => ?_)
    exact hsub e m' (.tail hitem hask) (D.leads_trans hkeeps.1 hlater)

theorem leads_of_asksRound {condition body : Code} {fuel : Nat} {m m' : Machine} {e : Code}
    (hsub : ∀ e m', AsksRound sub scope condition body fuel m e m' → D.Leads m m' →
      D.Keeps m' (sub e scope m'))
    (h : AsksRound sub scope condition body fuel m e m') : D.Leads m m' := by
  induction h with
  | condition => exact D.leads_refl _
  | body hcondition _ => exact ((hsub _ _ .condition (D.leads_refl _)).of_done hcondition).1
  | again hcondition htest hbody _ ih =>
    have hkeeps := (hsub _ _ .condition (D.leads_refl _)).of_done hcondition
    have hkeeps' := (hsub _ _ (.body hcondition htest) hkeeps.1).of_done hbody
    have hleads := D.leads_trans hkeeps.1 hkeeps'.1
    refine D.leads_trans hleads (ih fun e m' hask hlater => ?_)
    exact hsub e m' (.again hcondition htest hbody hask) (D.leads_trans hleads hlater)

/-- When a part is asked for, the machine has developed along the parts before it. -/
theorem leads_of_asks {fuel : Nat} {e e' : Code} {m m' : Machine}
    (hsub : ∀ e' m', Asks sub scope fuel m e e' m' → D.Leads m m' → D.Keeps m' (sub e' scope m'))
    (h : Asks sub scope fuel m e e' m') : D.Leads m m' := by
  cases h with
  | value | left | ifOnly | choice | callee => exact D.leads_refl _
  | right hleft _ => exact ((hsub _ _ .left (D.leads_refl _)).of_done hleft).1
  | thenOnly hcondition _ => exact ((hsub _ _ .ifOnly (D.leads_refl _)).of_done hcondition).1
  | thenBranch hcondition _ | elseBranch hcondition _ =>
    exact ((hsub _ _ .choice (D.leads_refl _)).of_done hcondition).1
  | round hround => exact leads_of_asksRound (fun e m' hask => hsub e m' (.round hask)) hround
  | item hitem => exact leads_of_asksItem (fun e m' hask => hsub e m' (.item hask)) hitem
  | arg hcallee harg =>
    have hkeeps := (hsub _ _ .callee (D.leads_refl _)).of_done hcallee
    refine D.leads_trans hkeeps.1 (leads_of_asksItem (fun e m' hask hlater => ?_) harg)
    exact hsub e m' (.arg hcallee hask) (D.leads_trans hkeeps.1 hlater)

end

/-! ## Calls -/

theorem keeps_callBuiltin (b : Builtin) (args : List Value) (m : Machine) :
    D.Keeps m (callBuiltin ctx b args m) := by
  cases b with
  | print => exact ⟨D.printLine _, D.fitsValue_bool _ _⟩
  | write => exact ⟨D.writeFile _ _, D.fitsValue_bool _ _⟩
  | length =>
    simp only [callBuiltin]
    rcases args.head? with _ | (x | s | b | f)
    case some.string => exact ⟨D.leads_refl m, D.fitsValue_number _ _⟩
    all_goals exact D.leads_refl m

/-- A called value: a built-in, or a closure whose body is evaluated in a scope made for it. -/
theorem keeps_callValue {sub : Evaluator} {f : Value} {values : List Value} {m : Machine}
    (hbody : ∀ c inner m', f = .function (.closure c) → m.depth < ctx.limit →
      enterScope c values m = .done inner m' →
      D.Keeps m'.enter (sub c.body inner m'.enter) ∧
        ∀ m'', D.Leads m'.enter m'' → D.Leads m m''.leave) :
    D.Keeps m (callValue ctx sub f values m) := by
  rcases f with x | s | b | c | b
  case function.closure =>
    rw [callValue, callClosure, Run.bind_apply]
    simp only [Run.get]
    by_cases hdepth : ctx.limit ≤ m.depth
    · rw [if_pos hdepth]
      exact D.leads_refl m
    · rw [if_neg hdepth, Run.bind_apply]
      cases henter : enterScope c values m with
      | done inner m' =>
        obtain ⟨hkeeps, hleave⟩ := hbody c inner m' rfl (Nat.lt_of_not_le hdepth) henter
        simp only [Eval.deeper]
        cases hresult : sub c.body inner m'.enter with
        | done v m'' =>
          rw [hresult] at hkeeps
          exact ⟨hleave m'' hkeeps.1, hkeeps.2⟩
        | failed e m'' =>
          rw [hresult] at hkeeps
          exact hleave m'' hkeeps
        | unfinished => trivial
      | failed e m' => contradiction
      | unfinished => contradiction
  case function.builtin => exact D.keeps_callBuiltin b values m
  all_goals exact D.leads_refl m

/-! ## Evaluations -/

section
variable {D} {active : List Nat} {fuel : Nat} {scope : ScopeId} {m : Machine}

/-- When callee and arguments are known, the machine has developed along them, and they fit it. -/
theorem fits_of_evalArgs {s : Span} {callee : Code} {args : List Code} {c : Closure}
    {values : List Value} {m₁ m₂ : Machine}
    (hsub : ∀ e' m', Asks (eval ctx fuel) scope fuel m (.call s callee args) e' m' →
      D.Leads m m' → D.Keeps m' (eval ctx fuel e' scope m'))
    (hcallee : eval ctx fuel callee scope m = .done (.function (.closure c)) m₁)
    (hargs : evalArgs (eval ctx fuel) scope [] args m₁ = .done values m₂) :
    D.Leads m m₂ ∧ D.Fits m₂.store c ∧
      ∀ d, .function (.closure d) ∈ values → D.Fits m₂.store d := by
  have hf := (hsub _ _ .callee (D.leads_refl m)).of_done hcallee
  have hvalues := (keeps_evalArgs []
    (fun e m' hask hlater => hsub e m' (.arg hcallee hask) (D.leads_trans hf.1 hlater))
    (List.forall_mem_nil _)).of_done hargs
  -- the callee was evaluated before the arguments, and still fits behind them
  exact ⟨D.leads_trans hf.1 hvalues.1, D.fits_of_leads hvalues.1 (hf.2 c rfl),
    fun d hd => hvalues.2 _ hd d rfl⟩

/-- The body of a called closure is entered as the discipline asks. -/
theorem entered {s : Span} {callee : Code} {args : List Code} {c : Closure} {values : List Value}
    {m₁ m₂ m₃ : Machine} {inner : ScopeId}
    (hp : D.Holds ⟨active, fuel + 1, .call s callee args, scope, m⟩)
    (hsub : ∀ e' m', Asks (eval ctx fuel) scope fuel m (.call s callee args) e' m' →
      D.Leads m m' → D.Keeps m' (eval ctx fuel e' scope m'))
    (hcallee : eval ctx fuel callee scope m = .done (.function (.closure c)) m₁)
    (hargs : evalArgs (eval ctx fuel) scope [] args m₁ = .done values m₂)
    (hdepth : m₂.depth < ctx.limit) (henter : enterScope c values m₂ = .done inner m₃) :
    D.Holds ⟨c.label :: active, fuel, c.body, inner, m₃.enter⟩ ∧
      ∀ m₄, D.Leads m₃.enter m₄ → D.Leads m₂ m₄.leave := by
  obtain ⟨hleads, hfits, hvalues⟩ := fits_of_evalArgs hsub hcallee hargs
  exact D.enter hp (.call hcallee hargs hdepth henter) hleads hfits hvalues hdepth henter

theorem keeps_evalBinary {s : Span} {op : BinaryOp} {left right : Code}
    (hsub : ∀ e' m', Asks (eval ctx fuel) scope fuel m (.binary s op left right) e' m' →
      D.Leads m m' → D.Keeps m' (eval ctx fuel e' scope m')) :
    D.Keeps m (evalBinary (eval ctx fuel) scope op left right m) := by
  rw [evalBinary]
  apply D.keeps_bind (hsub _ _ .left (D.leads_refl m))
  intro a m₁ hleft hleads ha
  by_cases hdecides : decides op a = true
  · rw [if_pos hdecides]
    exact ⟨D.leads_refl m₁, ha⟩
  rw [if_neg hdecides]
  rw [Bool.not_eq_true] at hdecides
  apply D.keeps_bind (hsub _ _ (.right hleft hdecides) hleads)
  intro b m₂ hright hleads' hb
  cases hop : Value.binary op a b with
  | ok v =>
    refine ⟨D.leads_refl m₂, ?_⟩
    intro c hc
    subst hc
    -- a function can only be the value of one of the operands
    rcases Value.eq_of_binary_function hop with rfl | rfl
    · exact D.fits_of_leads hleads' (ha c rfl)
    · exact hb c rfl
  | error fault => exact D.leads_refl m₂

theorem keeps_evalCall {s : Span} {callee : Code} {args : List Code}
    (hp : D.Holds ⟨active, fuel + 1, .call s callee args, scope, m⟩)
    (hsub : ∀ e' m', Asks (eval ctx fuel) scope fuel m (.call s callee args) e' m' →
      D.Leads m m' → D.Keeps m' (eval ctx fuel e' scope m'))
    (ih : ∀ active e scope m, D.Holds ⟨active, fuel, e, scope, m⟩ →
      D.Keeps m (eval ctx fuel e scope m)) :
    D.Keeps m (evalCall ctx (eval ctx fuel) scope callee args m) := by
  rw [evalCall]
  apply D.keeps_bind (hsub _ _ .callee (D.leads_refl m))
  intro f m₁ hcallee hleads hf
  have hargs := keeps_evalArgs []
    (fun e m' hask hlater => hsub e m' (.arg hcallee hask) (D.leads_trans hleads hlater))
    (List.forall_mem_nil _)
  apply D.keeps_bind hargs
  intro values m₂ hvalues hleads' hfit
  apply D.keeps_callValue
  intro c inner m₃ hc hdepth henter
  rw [hc] at hcallee
  obtain ⟨hbody, hleave⟩ := entered hp hsub hcallee hvalues hdepth henter
  exact ⟨ih _ _ _ _ hbody, hleave⟩

/-- One expression keeps to the discipline if its parts and the bodies that it enters do. -/
theorem keeps_evalNode {e : Code} (hp : D.Holds ⟨active, fuel + 1, e, scope, m⟩)
    (ih : ∀ active e scope m, D.Holds ⟨active, fuel, e, scope, m⟩ →
      D.Keeps m (eval ctx fuel e scope m)) :
    D.Keeps m (evalNode ctx (eval ctx fuel) fuel scope e m) := by
  -- whatever part is asked for, the discipline holds of it
  have hsub : ∀ e' m', Asks (eval ctx fuel) scope fuel m e e' m' → D.Leads m m' →
      D.Keeps m' (eval ctx fuel e' scope m') :=
    fun e' m' hask hleads => ih active e' scope m' (D.part hp hask hleads)
  cases e with
  | number s x => exact ⟨D.leads_refl m, D.fitsValue_number m x⟩
  | string s contents => exact ⟨D.leads_refl m, D.fitsValue_string m _⟩
  | bool s b => exact ⟨D.leads_refl m, D.fitsValue_bool m b⟩
  | lambda s label params body =>
    refine ⟨D.leads_refl m, ?_⟩
    intro c hc
    cases hc
    exact D.lambda hp
  | var s x =>
    rw [evalNode, readVariable]
    cases hget : m.store.get scope x with
    | some value =>
      refine ⟨D.leads_refl m, ?_⟩
      intro c hc
      subst hc
      exact D.read hp hget
    | none => exact D.leads_refl m
  | assign s x value =>
    rw [evalNode]
    apply D.keeps_bind (hsub _ _ .value (D.leads_refl m))
    intro v m' hvalue hleads hv
    rw [setVariable]
    cases htarget : m'.store.target? scope x with
    | some found =>
      have hdefine := D.assign hp hvalue hleads hv htarget
      exact ⟨hdefine, D.fitsValue_of_leads hdefine hv⟩
    | none => exact D.leads_refl m'
  | binary s op left right => exact keeps_evalBinary hsub
  | ifThen s condition thenBranch =>
    rw [evalNode]
    apply D.keeps_bind (hsub _ _ .ifOnly (D.leads_refl m))
    intro test m₁ hcondition hleads _
    by_cases htest : test.isFalse = true
    · rw [if_pos htest]
      exact ⟨D.leads_refl m₁, D.fitsValue_bool m₁ false⟩
    · rw [if_neg htest]
      exact hsub _ _ (.thenOnly hcondition (Bool.not_eq_true _ ▸ htest)) hleads
  | ifElse s condition thenBranch elseBranch =>
    rw [evalNode]
    apply D.keeps_bind (hsub _ _ .choice (D.leads_refl m))
    intro test m₁ hcondition hleads _
    by_cases htest : test.isFalse = true
    · rw [if_pos htest]
      exact hsub _ _ (.elseBranch hcondition htest) hleads
    · rw [if_neg htest]
      exact hsub _ _ (.thenBranch hcondition (Bool.not_eq_true _ ▸ htest)) hleads
  | loop s condition body =>
    exact keeps_evalLoop (fun e' m' hask => hsub e' m' (.round hask)) (D.fitsValue_bool m false)
  | seq s items =>
    exact keeps_evalSeq (fun e' m' hask => hsub e' m' (.item hask)) (D.fitsValue_bool m false)
  | call s callee args => exact keeps_evalCall hp hsub ih

end

/-- Whole evaluations keep to the discipline. -/
theorem keeps {p : Moment} (hp : D.Holds p) : D.Keeps p.machine (p.outcome ctx) := by
  obtain ⟨active, fuel, e, scope, m⟩ := p
  induction fuel generalizing active e scope m with
  | zero => trivial
  | succ fuel ih =>
    have hnode := keeps_evalNode hp ih
    simp only [Moment.outcome, eval, Run.mapError]
    cases hresult : evalNode ctx (eval ctx fuel) fuel scope e m with
    | done v m' =>
      rw [hresult] at hnode
      exact hnode
    | failed error m' =>
      rw [hresult] at hnode
      exact hnode
    | unfinished => trivial

/-- The value of a part, as it was asked for. -/
theorem keeps_of_asks {active : List Nat} {fuel : Nat} {e e' : Code} {scope : ScopeId}
    {m m₁ m₂ : Machine} {v : Value} (hp : D.Holds ⟨active, fuel + 1, e, scope, m⟩)
    (hask : Asks (eval ctx fuel) scope fuel m e e' m₁)
    (hvalue : eval ctx fuel e' scope m₁ = .done v m₂) :
    D.Leads m₁ m₂ ∧ D.FitsValue m₂ v := by
  have hleads : D.Leads m m₁ :=
    leads_of_asks (fun _ _ hask hleads => D.keeps (D.part hp hask hleads)) hask
  exact (D.keeps (D.part hp hask hleads)).of_done hvalue

theorem holds_of_calls {p q : Moment} (hp : D.Holds p) (h : Calls ctx p q) : D.Holds q := by
  cases h with
  | @part active fuel e scope m e' m' hask =>
    refine D.part hp hask (leads_of_asks (fun e' m' hask hleads => ?_) hask)
    exact D.keeps (D.part hp hask hleads)
  | body henter =>
    cases henter with
    | call hcallee hargs hdepth henter =>
      refine (entered hp ?_ hcallee hargs hdepth henter).1
      intro e' m' hask hleads
      exact D.keeps (D.part hp hask hleads)

/-- When a body is entered, the closure and the arguments fit the store in which its scope is
made. -/
theorem fits_of_enters {active : List Nat} {fuel : Nat} {e : Code} {scope inner : ScopeId}
    {m m' : Machine} {c : Closure} (hp : D.Holds ⟨active, fuel + 1, e, scope, m⟩)
    (h : Enters ctx (eval ctx fuel) scope m e c inner m') :
    ∃ values m₁ m₂, D.Leads m m₁ ∧ D.Fits m₁.store c ∧
      (∀ d, .function (.closure d) ∈ values → D.Fits m₁.store d) ∧
      enterScope c values m₁ = .done inner m₂ ∧ m' = m₂.enter := by
  obtain ⟨hcallee, hargs, -, henter⟩ := h
  have hfits := fits_of_evalArgs (fun _ _ hask hleads => D.keeps (D.part hp hask hleads)) hcallee
    hargs
  exact ⟨_, _, _, hfits.1, hfits.2.1, hfits.2.2, henter, rfl⟩

/-- What is known of a moment is known of all that it reaches. -/
theorem holds {p q : Moment} (hp : D.Holds p) (h : Reaches ctx p q) : D.Holds q := by
  induction h with
  | refl => exact hp
  | tail _ hcalls ih => exact D.holds_of_calls ih hcalls

end Discipline

end LambdaScript
