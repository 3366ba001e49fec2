import LambdaScript.Proofs.Lookups
import LambdaScript.Proofs.Nodes
import LambdaScript.Proofs.Session
/-!
# The interner matters only for names in use

What holds of every span and name in a program and in the closures that are bound to names holds at
every moment of a run (`throughout`): evaluation makes no new ones. So a run depends on its interner
only through the names in the program and in those closures (`outcome_respelled`), and an interner
that has grown in the meantime gives the same run.
-/

namespace LambdaScript

variable {P Q : Span → Prop} {K L : Name → Prop}

/-- The properties hold of all spans and names in a closure. -/
def Closure.Every (P : Span → Prop) (K : Name → Prop) (c : Closure) : Prop :=
  (∀ x ∈ c.params, K x) ∧ c.body.Every P K

/-- They hold of all spans and names in closures that are bound to names. -/
def Store.Every (P : Span → Prop) (K : Name → Prop) (store : Store) : Prop :=
  ∀ scope x c, store.binding? scope x = some (.function (.closure c)) → c.Every P K

/-- They hold of all spans and names in a value. -/
def Value.Every (P : Span → Prop) (K : Name → Prop) (v : Value) : Prop :=
  ∀ c, v = .function (.closure c) → c.Every P K

namespace Store

variable {store : Store} {scope : ScopeId} {x : Name} {v : Value} {c : Closure}
  {args : List Value}

theorem Every.get (h : store.Every P K) (hget : store.get scope x = some (.function (.closure c))) :
    c.Every P K := by
  rw [get_eq_lookup] at hget
  cases hlookup : store.lookup scope x with
  | none =>
    rw [hlookup] at hget
    contradiction
  | some found =>
    rw [hlookup] at hget
    exact h found x c hget

theorem Every.define (h : store.Every P K) (hv : v.Every P K) :
    (store.define scope x v).Every P K := by
  intro found y c hc
  rw [binding?_define] at hc
  split at hc
  · exact hv c (Option.some.inj hc)
  · exact h found y c hc

theorem Every.entered (h : store.Every P K) (hargs : ∀ v ∈ args, v.Every P K) :
    (entered store c args).Every P K := by
  intro found y d hd
  rcases eq_of_binding?_bindParams hd with hd | hd | hd
  · rw [binding?_extend] at hd
    exact h found y d hd
  · contradiction
  · exact hargs _ hd d rfl

end Store

/-- Properties of spans and names hold throughout a run. -/
def throughout (ctx : Context) (P : Span → Prop) (K : Name → Prop) : Discipline ctx where
  Holds p := p.code.Every P K ∧ p.machine.store.Every P K
  Fits _ c := c.Every P K
  Leads m m' := m.store.Every P K → m'.store.Every P K
  leads_refl _ h := h
  leads_trans h h' hstore := h' (h hstore)
  fits_of_leads _ hc := hc
  part h hask hleads := ⟨h.1.part (mem_parts_of_asks hask), hleads h.2⟩
  enter h _ hleads hc hargs _ henter := by
    rw [enterScope_apply] at henter
    cases henter
    refine ⟨⟨hc.2, (hleads h.2).entered fun v hv d hd => hargs d (hd ▸ hv)⟩, ?_⟩
    intro m₃ hbody hstore
    exact hbody (hstore.entered fun v hv d hd => hargs d (hd ▸ hv))
  read h hget := h.2.get hget
  assign _ _ _ hv _ hstore := hstore.define hv
  lambda h := ⟨h.1.2.1, h.1.2.2⟩
  printLine _ h := h
  writeFile _ _ h := h

/-! ## Names looked up -/

theorem Value.Every.shownNames {v : Value} (h : v.Every P K) : ∀ x ∈ v.shownNames, K x := by
  rcases v with x | s | b | c | b
  case function.closure => exact (h c rfl).1
  all_goals exact List.forall_mem_nil _

/-- A built-in shows some of its arguments, or else `false`. -/
theorem Builtin.shown_every {b : Builtin} {args : List Value} (h : ∀ v ∈ args, v.Every P K) :
    ∀ v ∈ b.shown args, v.Every P K := by
  have hhead : ∀ values : List Value, values ⊆ args → (values.headD (.bool false)).Every P K := by
    intro values hvalues
    cases values with
    | nil => exact fun c hc => nomatch hc
    | cons v values => exact h v (hvalues List.mem_cons_self)
  have hfirst := hhead args (List.Subset.refl _)
  cases b with
  | print => exact List.forall_mem_cons.mpr ⟨hfirst, List.forall_mem_nil _⟩
  | length => exact List.forall_mem_nil _
  | write =>
    have hsecond := hhead args.tail (List.tail_sublist args).subset
    exact List.forall_mem_cons.mpr ⟨hfirst, List.forall_mem_cons.mpr
      ⟨hsecond, List.forall_mem_nil _⟩⟩

/-- What holds of all names throughout a run holds of those that it looks up. -/
theorem Moment.LooksUp.holds {ctx : Context} {p : Moment} {x : Name} (hx : p.LooksUp ctx x)
    (h : (throughout ctx P K).Holds p) : K x := by
  obtain ⟨active, _, e, scope, m⟩ := p
  obtain ⟨fuel, rfl, hx⟩ := hx
  cases hx with
  | string => exact h.1.2
  | var _ => exact h.1.2
  | assign _ _ => exact h.1.2.1
  | @shown s callee args b m₁ values m₂ v x hcallee hargs hv hx =>
    have hsub : ∀ e' m', Asks (eval ctx fuel) scope fuel m (.call s callee args) e' m' →
        (throughout ctx P K).Leads m m' →
        (throughout ctx P K).Keeps m' (eval ctx fuel e' scope m') :=
      fun e' m' hask hleads => Discipline.keeps _ (Discipline.part _ h hask hleads)
    have hleads := ((hsub _ _ .callee id).of_done hcallee).1
    -- the arguments are closures of the program or of the store
    have hvalues := Discipline.keeps_evalArgs []
      (fun e m' hask hlater => hsub e m' (.arg hcallee hask) fun hstore => hlater (hleads hstore))
      (List.forall_mem_nil _)
    exact Value.Every.shownNames (Builtin.shown_every (hvalues.of_done hargs).2 v hv) x hx

/-! ## Other spellings -/

section
variable {names names' : Interner} {limit : Nat}

/-- A value is shown alike if the names in it are spelled alike. -/
theorem Value.display_congr (hspelling : ∀ x, K x → names'.spelling x = names.spelling x)
    {v : Value} (h : v.Every P K) : v.display names' = v.display names :=
  Value.display_of_shownNames fun x hx => hspelling x (h.shownNames x hx)

/-- One expression, whose parts come to the same. -/
theorem evalNode_respelled (hspelling : ∀ x, K x → names'.spelling x = names.spelling x)
    {active : List Nat} {fuel : Nat} {scope : ScopeId} {e : Code} {m : Machine}
    (h : (throughout ⟨names, limit⟩ P K).Holds ⟨active, fuel + 1, e, scope, m⟩) :
    evalNode ⟨names', limit⟩ (eval ⟨names, limit⟩ fuel) fuel scope e m =
      evalNode ⟨names, limit⟩ (eval ⟨names, limit⟩ fuel) fuel scope e m :=
  evalNode_of_looksUp fun x hx => hspelling x (Moment.LooksUp.holds ⟨fuel, rfl, hx⟩ h)

/-- A run is the same under another interner that spells the names in use alike. -/
theorem outcome_respelled (hspelling : ∀ x, K x → names'.spelling x = names.spelling x) {p : Moment}
    (h : (throughout ⟨names, limit⟩ P K).Holds p) :
    p.outcome ⟨names', limit⟩ = p.outcome ⟨names, limit⟩ := by
  obtain ⟨active, fuel, e, scope, m⟩ := p
  induction fuel generalizing active e scope m with
  | zero => rfl
  | succ fuel ih =>
    have hcalls : ∀ q, Calls ⟨names', limit⟩ ⟨active, fuel + 1, e, scope, m⟩ q →
        eval ⟨names, limit⟩ fuel q.code q.scope q.machine = q.outcome ⟨names', limit⟩ := by
      intro q hcall
      have hq := (throughout ⟨names', limit⟩ P K).holds_of_calls h hcall
      cases hcall with
      | part hask => exact (ih _ _ _ _ hq).symm
      | body henter => exact (ih _ _ _ _ hq).symm
    rw [Moment.outcome_eq hcalls]
    simp only [Moment.outcome, eval, Run.mapError, evalNode_respelled hspelling h]

end

/-! ## Programs of a session -/

namespace Interpreter

variable {i : Interpreter} {codes : List Code} {code : Code}

/-- What holds of all programs so far holds of the closures that they have left behind. -/
theorem Ready.every (h : i.Ready codes) (hcodes : ∀ code ∈ codes, code.Every P K) :
    i.machine.store.Every P K := by
  intro scope x c hc
  obtain ⟨around, s, ⟨root, hroot, hwithin⟩, -⟩ := h.sound.fits scope x c hc
  exact (hwithin.every (hcodes root hroot)).2

theorem Ready.throughout (h : i.Ready codes) (hcodes : ∀ code ∈ codes, code.Every P K)
    (hcode : code ∈ codes) (ctx : Context) (fuel : Nat) :
    (throughout ctx P K).Holds (i.start fuel code) :=
  ⟨hcodes code hcode, h.every hcodes⟩

/-- A program of a session runs alike under an interner that spells all names so far alike. -/
theorem Ready.evalCode_respelled (h : i.Ready codes) {names names' : Interner}
    (hspelling : ∀ x, K x → names'.spelling x = names.spelling x)
    (hcodes : ∀ code ∈ codes, code.Every P K) (hcode : code ∈ codes) (fuel : Nat) :
    evalCode names' fuel i.global code i = evalCode names fuel i.global code i := by
  have houtcome : (i.start fuel code).outcome (i.context names') =
      (i.start fuel code).outcome (i.context names) :=
    outcome_respelled hspelling (h.throughout hcodes hcode ⟨names, i.limit⟩ fuel)
  rw [evalCode_apply, evalCode_apply, houtcome]

/-- The value of a program comes from the programs so far. -/
theorem Ready.value_every (h : i.Ready codes) {names : Interner} {fuel : Nat} {value : Value}
    {i' : Interpreter} (hcodes : ∀ code ∈ codes, code.Every P K) (hcode : code ∈ codes)
    (hrun : evalCode names fuel i.global code i = .done value i') : value.Every P K := by
  obtain ⟨m, houtcome, -⟩ := outcome_of_done hrun
  have hkeeps := (LambdaScript.throughout (i.context names) P K).keeps
    (h.throughout hcodes hcode (i.context names) fuel)
  exact (hkeeps.of_done houtcome).2

end Interpreter
end LambdaScript
