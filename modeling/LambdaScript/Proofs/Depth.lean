import LambdaScript.Proofs.Blame
/-!
# The depth of calls

The depth of a machine counts the closure bodies that are being evaluated (`CountsDepth.counts`). It
never exceeds the limit, a call of a closure fails exactly if it would, and no other call does so
(`CountsDepth.overflow`). Evaluations and calls leave the depth as they found it, also when they
fail, so that every program starts from zero (`depth_restored`).
-/

namespace LambdaScript

/-- Evaluation counts the bodies that it enters, beginning at `base`, up to the limit. -/
def counted (base : Nat) (ctx : Context) : Discipline ctx where
  Holds p := p.machine.depth = base + p.active.length ∧
    (p.active = [] ∨ p.machine.depth ≤ ctx.limit)
  Fits _ _ := True
  Leads m m' := m'.depth = m.depth
  leads_refl _ := rfl
  leads_trans h h' := h'.trans h
  fits_of_leads _ _ := trivial
  part h _ hleads := by
    rw [hleads]
    exact h
  enter {_ _ _ _ _ _ _ _ _ m₁ _ _} h _ hleads _ _ hdepth henter := by
    rw [enterScope_apply] at henter
    cases henter
    refine ⟨⟨?_, .inr hdepth⟩, fun m₃ hbody => ?_⟩
    · show m₁.depth + 1 = base + (_ + 1)
      rw [hleads, h.1]
      rfl
    · show m₃.depth - 1 = m₁.depth
      rw [hbody]
      rfl
  read _ _ := trivial
  assign _ _ _ _ _ := rfl
  lambda _ := trivial
  printLine _ := rfl
  writeFile _ _ := rfl

section
variable {ctx : Context} {p : Moment} {m : Machine}

/-- An evaluation leaves the depth as it has found it. -/
theorem keeps_depth (ctx : Context) (fuel : Nat) (e : Code) (scope : ScopeId) (m : Machine) :
    (eval ctx fuel e scope m).Keeps (fun m m' => m'.depth = m.depth) (fun _ _ => True) m := by
  have hstart : (counted m.depth ctx).Holds ⟨[], fuel, e, scope, m⟩ := ⟨rfl, .inl rfl⟩
  exact ((counted m.depth ctx).keeps hstart).imp (fun _ h => h) fun _ _ _ _ => trivial

/-- So does a call from outside of any expression. -/
theorem keeps_depth_call (ctx : Context) (fuel : Nat) (callee : Value) (args : List Value)
    (m : Machine) : (call ctx fuel callee args m).Keeps (fun m m' => m'.depth = m.depth)
      (fun _ _ => True) m := by
  have hcall : (counted m.depth ctx).Keeps m (call ctx fuel callee args m) := by
    apply Discipline.keeps_callValue
    intro c inner m' _ hdepth henter
    rw [enterScope_apply] at henter
    cases henter
    refine ⟨(counted m.depth ctx).keeps
      (p := ⟨[c.label], fuel, c.body, _, _⟩) ⟨rfl, .inr hdepth⟩, fun m'' hbody => ?_⟩
    show m''.depth - 1 = m.depth
    rw [hbody]
    rfl
  exact hcall.imp (fun _ h => h) fun _ _ _ _ => trivial

/-- Calling a built-in never overflows. -/
theorem callBuiltin_ne_overflow {b : Builtin} {args : List Value} {m' : Machine}
    {error : RuntimeError} (h : callBuiltin ctx b args m = .failed error m') (limit : Nat) :
    error.fault ≠ .stackOverflow limit := by
  obtain ⟨fault, hrefuses, rfl, -⟩ := callBuiltin_failed h
  cases hrefuses with
  | notCallable | length =>
    intro heq
    cases heq

/-! ## Calling closures -/

/-- The moment is a call of the closure `c`: its callee has been evaluated to it, and its arguments
have been evaluated. -/
def Moment.CallsClosure (ctx : Context) (p : Moment) (c : Closure) : Prop :=
  ∃ fuel s callee args m₁ values m₂, p.fuel = fuel + 1 ∧ p.code = .call s callee args ∧
    eval ctx fuel callee p.scope p.machine = .done (.function (.closure c)) m₁ ∧
    evalArgs (eval ctx fuel) p.scope [] args m₁ = .done values m₂

/-- Evaluating callee and arguments leaves the depth as it was. -/
theorem depth_of_evalArgs {fuel : Nat} {callee : Code} {args : List Code} {scope : ScopeId}
    {f : Value} {values : List Value} {m₁ m₂ : Machine}
    (hcallee : eval ctx fuel callee scope m = .done f m₁)
    (hargs : evalArgs (eval ctx fuel) scope [] args m₁ = .done values m₂) :
    m₂.depth = m.depth := by
  have hfirst := (keeps_depth ctx fuel callee scope m).of_done hcallee
  have hrest : (evalArgs (eval ctx fuel) scope [] args m₁).Keeps _ _ m₁ :=
    (counted m.depth ctx).keeps_evalArgs [] (fun e m' _ _ =>
      (keeps_depth ctx fuel e scope m').imp (fun _ h => h) fun _ _ _ _ _ _ => trivial)
      (List.forall_mem_nil _)
  exact ((hrest.of_done hargs).1).trans hfirst.1

/-- The limit is exceeded by a call of a closure when as many bodies are being evaluated. -/
theorem Moment.raises_overflow_iff {limit : Nat} :
    (∃ m', p.Raises ctx (.stackOverflow limit) m') ↔
      limit = ctx.limit ∧ ctx.limit ≤ p.machine.depth ∧ ∃ c, p.CallsClosure ctx c := by
  obtain ⟨active, _, e, scope, m⟩ := p
  constructor
  · rintro ⟨m', fuel, rfl, hfaults⟩
    cases hfaults with
    | binary _ _ _ h => exact absurd (Value.operator?_binary h) nofun
    | call hcallee hargs h =>
      cases h with
      | overflow h =>
        rw [depth_of_evalArgs hcallee hargs] at h
        exact ⟨rfl, h, _, fuel, _, _, _, _, _, _, rfl, rfl, hcallee, hargs⟩
  · rintro ⟨rfl, hdepth, c, fuel, s, callee, args, m₁, values, m₂, rfl, rfl, hcallee, hargs⟩
    refine ⟨m₂, fuel, rfl, .call hcallee hargs (.overflow ?_)⟩
    rw [depth_of_evalArgs hcallee hargs]
    exact hdepth

/-- Below the limit, the body of a closure that is called is entered. -/
theorem Moment.CallsClosure.exists_body {c : Closure} (h : p.CallsClosure ctx c)
    (hdepth : p.machine.depth < ctx.limit) :
    ∃ q, Calls ctx p q ∧ q.active = c.label :: p.active ∧ q.code = c.body := by
  obtain ⟨active, _, e, scope, m⟩ := p
  obtain ⟨fuel, s, callee, args, m₁, values, m₂, rfl, rfl, hcallee, hargs⟩ := h
  have hlt : m₂.depth < ctx.limit := by
    rw [depth_of_evalArgs hcallee hargs]
    exact hdepth
  exact ⟨_, .body (.call hcallee hargs hlt (enterScope_apply c values m₂)), rfl, rfl⟩

end

namespace Interpreter

/-! ## Programs -/

/-- What the depth of calls means while a program runs. -/
structure CountsDepth (names : Interner) (i : Interpreter) (fuel : Nat) (code : Code) : Prop where
  /-- The depth is the number of closure bodies being evaluated, and within the limit. -/
  counts : ∀ p, Reaches (i.context names) (i.start fuel code) p →
    p.machine.depth = p.active.length ∧ p.active.length ≤ i.limit
  /-- It is the same again behind every evaluation. -/
  restores : ∀ p, Reaches (i.context names) (i.start fuel code) p →
    (p.outcome (i.context names)).Keeps (fun _ m' => m'.depth = p.active.length) (fun _ _ => True)
      p.machine
  /-- The limit is exceeded exactly by calling a closure while as many bodies are active. -/
  overflow : ∀ p limit, Reaches (i.context names) (i.start fuel code) p →
    ((∃ m, p.Raises (i.context names) (.stackOverflow limit) m) ↔
      limit = i.limit ∧ p.active.length = i.limit ∧ ∃ c, p.CallsClosure (i.context names) c)
  /-- Otherwise the body of a closure that is called is entered. -/
  enters : ∀ p c, Reaches (i.context names) (i.start fuel code) p →
    p.CallsClosure (i.context names) c → p.active.length ≠ i.limit →
    ∃ q, Calls (i.context names) p q ∧ q.active = c.label :: p.active ∧ q.code = c.body
  /-- The program fails so exactly if one of its moments does. -/
  fails : ∀ limit, (∃ error i', evalCode names fuel i.global code i = .failed error i' ∧
      error.fault = .stackOverflow limit) ↔
    ∃ p m, Reaches (i.context names) (i.start fuel code) p ∧
      p.Raises (i.context names) (.stackOverflow limit) m

variable {i i' : Interpreter} {codes : List Code}

theorem countsDepth_of_depth (hdepth : i.machine.depth = 0) (names : Interner) (fuel : Nat)
    (code : Code) : CountsDepth names i fuel code := by
  have hcounts : ∀ p, Reaches (i.context names) (i.start fuel code) p →
      p.machine.depth = p.active.length ∧ p.active.length ≤ i.limit := by
    intro p hreaches
    have hstart : (counted 0 (i.context names)).Holds (i.start fuel code) := ⟨hdepth, .inl rfl⟩
    obtain ⟨hcount, hlimit⟩ := (counted 0 (i.context names)).holds hstart hreaches
    rw [Nat.zero_add] at hcount
    refine ⟨hcount, ?_⟩
    rcases hlimit with hnil | hle
    · rw [hnil]
      exact Nat.zero_le _
    · rw [← hcount]
      exact hle
  refine ⟨hcounts, fun p hreaches => ?_, fun p limit hreaches => ?_, fun p c hreaches hcalls hne =>
    ?_, fun limit => ⟨?_, ?_⟩⟩
  · rw [← (hcounts p hreaches).1]
    exact (keeps_depth _ p.fuel p.code p.scope p.machine).imp (fun _ h => h) fun _ _ _ h => h
  · obtain ⟨hcount, hle⟩ := hcounts p hreaches
    rw [Moment.raises_overflow_iff, hcount]
    exact and_congr_right fun _ => and_congr_left fun _ =>
      ⟨fun h => Nat.le_antisymm hle h, fun h => Nat.le_of_eq h.symm⟩
  · obtain ⟨hcount, hle⟩ := hcounts p hreaches
    exact hcalls.exists_body (by rw [hcount]; exact Nat.lt_of_le_of_ne hle hne)
  · rintro ⟨error, i', hrun, hfault⟩
    obtain ⟨m, houtcome, -⟩ := outcome_of_failed hrun
    obtain ⟨p, m₁, hreaches, hraises, -, -⟩ := Moment.exists_raises houtcome
    rw [hfault] at hraises
    exact ⟨p, m₁, hreaches, hraises⟩
  · rintro ⟨p, m, hreaches, hraises⟩
    obtain ⟨m', houtcome⟩ := exists_failed_of_reaches hreaches hraises.outcome rfl
    refine ⟨⟨.stackOverflow limit, some p.code.span⟩, { i with machine := m' }, ?_, rfl⟩
    rw [evalCode_apply, houtcome]

theorem depth_defineGlobals (globals : List (String × Value)) (i : Interpreter)
    (names : Interner) :
    (globals.foldl (fun (i, names) (name, value) => defineGlobal i names name value)
      (i, names)).1.machine.depth = i.machine.depth := by
  induction globals generalizing i names with
  | nil => rfl
  | cons global globals ih => exact ih _ _

theorem depth_of_endsOn_evalCode {names : Interner} {fuel : Nat} {scope : ScopeId} {code : Code}
    (h : (evalCode names fuel scope code).EndsOn i i') :
    i'.machine.depth = i.machine.depth ∧ i'.limit = i.limit := by
  obtain ⟨m, hend, rfl⟩ := endsOn_evalCode h
  exact ⟨(keeps_depth _ _ _ _ _).of_endsOn hend, rfl⟩

theorem depth_of_endsOn_callValue {names : Interner} {fuel : Nat} {callee : Value}
    {args : List Value} (h : (callValue names fuel callee args).EndsOn i i') :
    i'.machine.depth = i.machine.depth := by
  obtain ⟨m, hend, rfl⟩ := endsOn_onMachine h
  exact (keeps_depth_call _ _ _ _ _).of_endsOn hend

/-- Between programs no body is being evaluated. -/
theorem Used.depth_eq_zero (h : Used i codes) : i.machine.depth = 0 := by
  induction h with
  | build => exact depth_defineGlobals _ _ _
  | evaluate _ _ hrun ih => exact (depth_of_endsOn_evalCode hrun).1.trans ih
  | call _ _ _ hrun ih => exact (depth_of_endsOn_callValue hrun).trans ih
  | load _ _ ih | define _ _ ih | newScope _ ih | takePrinted _ ih => exact ih

/-- Evaluating and calling leave the depth as they have found it, whichever way they end; built-ins
never overflow; and in every program that a host runs, also behind one that has failed, the depth
counts the bodies being evaluated, all the way up to the limit. The program behind another one may
have been loaded before, or is loaded then. -/
theorem depth_restored :
    (∀ names fuel scope code i i', (evalCode names fuel scope code).EndsOn i i' →
      i'.machine.depth = i.machine.depth) ∧
    (∀ names fuel callee args i i', (callValue names fuel callee args).EndsOn i i' →
      i'.machine.depth = i.machine.depth) ∧
    (∀ names fuel b args i i' error limit,
      callValue names fuel (.function (.builtin b)) args i = .failed error i' →
      error.fault ≠ .stackOverflow limit) ∧
    ∀ i codes, Used i codes → ∀ names fuel code, CountsDepth names i fuel code ∧
      ∀ i', (evalCode names fuel i.global code).EndsOn i i' →
        i'.machine.depth = 0 ∧ i'.limit = i.limit ∧
        (∀ names fuel code, CountsDepth names i' fuel code) ∧
        ∀ names fuel tree, CountsDepth names (i'.load tree).2 fuel (i'.load tree).1 := by
  refine ⟨?_, ?_, ?_, ?_⟩
  · exact fun names fuel scope code i i' hrun => (depth_of_endsOn_evalCode hrun).1
  · exact fun names fuel callee args i i' hrun => depth_of_endsOn_callValue hrun
  · intro names fuel b args i i' error limit hrun
    simp only [callValue, onMachine, call, LambdaScript.callValue] at hrun
    cases hcall : callBuiltin (i.context names) b args i.machine <;> rw [hcall] at hrun <;>
      cases hrun
    exact callBuiltin_ne_overflow hcall limit
  · intro i codes hused names fuel code
    refine ⟨countsDepth_of_depth hused.depth_eq_zero names fuel code, fun i' hrun => ?_⟩
    obtain ⟨hsame, hlimit⟩ := depth_of_endsOn_evalCode hrun
    have hdepth : i'.machine.depth = 0 := hsame.trans hused.depth_eq_zero
    exact ⟨hdepth, hlimit, countsDepth_of_depth hdepth, fun names fuel tree =>
      countsDepth_of_depth (i := (i'.load tree).2) hdepth names fuel _⟩

/-- The program `(lambda () true)()`. -/
def calledConstant : Tree := .call .dummy (.lambda .dummy () [] (.bool .dummy true)) []

/-- The program `(lambda () (lambda () true)())()`. -/
def nestedConstant : Tree := .call .dummy (.lambda .dummy () [] calledConstant) []

/-- An interpreter that `nestedConstant` has been loaded into. -/
def withNestedConstant (limit : Nat) : Interpreter :=
  ((build .fresh (.buffer "") limit []).1.load nestedConstant).2

/-- Where one body may be active, the call inside of it fails; the program behind it may enter a
body again, and has a value. Where none may be active, the first call fails. -/
theorem depth_restored_nestedConstant :
    (∃ i', (evalCode .fresh 4 0 (nestedConstant.numbered 0).1).EndsOn (withNestedConstant 1) i' ∧
      (∃ p m, Reaches ⟨.fresh, 1⟩ ((withNestedConstant 1).start 4 (nestedConstant.numbered 0).1) p ∧
        p.active.length = 1 ∧ p.Raises ⟨.fresh, 1⟩ (.stackOverflow 1) m) ∧
      i'.machine.depth = 0 ∧
      CountsDepth .fresh (i'.load calledConstant).2 4 (i'.load calledConstant).1 ∧
      ∃ i'', evalProgram .fresh 4 calledConstant i' = .done (.bool true) i'') ∧
    ∃ m, ((withNestedConstant 0).start 4 (nestedConstant.numbered 0).1).Raises ⟨.fresh, 0⟩
      (.stackOverflow 0) m := by
  have hused : ∀ limit, Used (withNestedConstant limit) [(nestedConstant.numbered 0).1] :=
    fun limit => .load nestedConstant (.build fun _ _ => List.not_mem_nil)
  constructor
  · have hrun : evalCode .fresh 4 0 (nestedConstant.numbered 0).1 (withNestedConstant 1) =
        .failed ⟨.stackOverflow 1, some .dummy⟩ _ := rfl
    have hends : (evalCode .fresh 4 0 (nestedConstant.numbered 0).1).EndsOn
        (withNestedConstant 1) _ :=
      .inr ⟨_, hrun⟩
    obtain ⟨hcounts, hafter⟩ := depth_restored.2.2.2 _ _ (hused 1) .fresh 4 _
    obtain ⟨p, m, hreaches, hraises⟩ := (hcounts.fails 1).mp ⟨_, _, hrun, rfl⟩
    obtain ⟨-, hactive, -⟩ := (hcounts.overflow p 1 hreaches).mp ⟨m, hraises⟩
    obtain ⟨hdepth, -, -, hnext⟩ := hafter _ hends
    exact ⟨_, hends, ⟨p, m, hreaches, hactive, hraises⟩, hdepth, hnext .fresh 4 calledConstant,
      _, rfl⟩
  · obtain ⟨hcounts, -⟩ := depth_restored.2.2.2 _ _ (hused 0) .fresh 4 (nestedConstant.numbered 0).1
    exact (hcounts.overflow _ 0 .refl).mpr ⟨rfl, rfl, _, 3, _, _, _, _, _, _, rfl, rfl, rfl, rfl⟩

end Interpreter

end LambdaScript
