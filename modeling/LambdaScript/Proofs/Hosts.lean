import LambdaScript.Proofs.Bindings
import LambdaScript.Proofs.Session
/-!
# Interpreters in use

A host loads programs into an interpreter and evaluates them, or parts of them, as often as it likes
and in scopes of its choice; it calls values and binds names in between (`Interpreter.Used`).
Whatever it does, every closure that is bound to a name comes from a lambda node of a program that
has been loaded (`Used.store_from`), and everything that is evaluated later stands in one of these
programs (`Used.standsIn`).
-/

namespace LambdaScript

open Store

/-! ## Where closures come from -/

/-- The expression stands in one of the programs. -/
def Expr.StandsIn (codes : List Code) (e : Code) : Prop :=
  ∃ root ∈ codes, ∃ around, Within root around e

/-- The closure comes from a lambda node of one of the programs. -/
def Closure.From (codes : List Code) (c : Closure) : Prop :=
  ∃ s, Expr.StandsIn codes (.lambda s c.label c.params c.body)

/-- If the value is a closure, it comes from one of the programs. -/
def Value.From (codes : List Code) (v : Value) : Prop :=
  ∀ c, v = .function (.closure c) → c.From codes

/-- All closures that are bound to names come from the programs. -/
def Store.From (codes : List Code) (store : Store) : Prop :=
  ∀ scope x c, store.binding? scope x = some (.function (.closure c)) → c.From codes

section
variable {codes codes' : List Code} {store : Store} {scope found : ScopeId} {x : Name}
  {value : Value} {c : Closure}

theorem Expr.StandsIn.subset {e : Code} (h : e.StandsIn codes) (hcodes : codes ⊆ codes') :
    e.StandsIn codes' := by
  obtain ⟨root, hroot, hwithin⟩ := h
  exact ⟨root, hcodes hroot, hwithin⟩

theorem Expr.standsIn_of_mem {e : Code} (h : e ∈ codes) : e.StandsIn codes := ⟨e, h, [], .root⟩

theorem Expr.StandsIn.part {e e' : Code} (h : e.StandsIn codes) (hpart : e' ∈ e.parts) :
    e'.StandsIn codes := by
  obtain ⟨root, hroot, around, hwithin⟩ := h
  exact ⟨root, hroot, around, hwithin.part hpart⟩

/-- The body of a closure stands where its lambda node does. -/
theorem Closure.From.standsIn_body (h : c.From codes) : c.body.StandsIn codes := by
  obtain ⟨s, root, hroot, around, hwithin⟩ := h
  exact ⟨root, hroot, _, hwithin.body⟩

namespace Store.From

theorem subset (h : store.From codes) (hcodes : codes ⊆ codes') : store.From codes' :=
  BindsOnly.imp h fun _ ⟨s, hstands⟩ => ⟨s, hstands.subset hcodes⟩

theorem define (h : store.From codes) (hvalue : value.From codes) :
    (store.define found x value).From codes := BindsOnly.define h hvalue

theorem newScope (h : store.From codes) (parent : Option ScopeId) :
    (store.newScope parent).2.From codes := BindsOnly.newScope h parent

theorem entered (h : store.From codes) {args : List Value}
    (hargs : ∀ v ∈ args, v.From codes) : (entered store c args).From codes :=
  BindsOnly.entered h fun d hd => hargs _ hd d rfl

/-- What a name is bound to in the nearest scope that binds it is bound to the name. -/
theorem get (h : store.From codes) (hget : store.get scope x = some value) :
    value.From codes := by
  rintro c rfl
  exact BindsOnly.get h hget

end Store.From
end

/-! ## Evaluation -/

/-- The moment's expression stands in a program, and so does all that is bound by then. -/
structure Moment.Sourced (codes : List Code) (p : Moment) : Prop where
  standsIn : p.code.StandsIn codes
  store : p.machine.store.From codes

/-- Evaluation finds closures in the programs alone. -/
def sourced (codes : List Code) (ctx : Context) : Discipline ctx where
  Holds := Moment.Sourced codes
  Fits _ := Closure.From codes
  Leads m m' := m.store.From codes → m'.store.From codes
  leads_refl _ := id
  leads_trans h h' := h' ∘ h
  fits_of_leads _ hc := hc
  part h hask hleads := ⟨h.standsIn.part (mem_parts_of_asks hask), hleads h.store⟩
  enter {_ _ _ _ _ _ _ c values m₁ _ _} h _ hleads hc hvalues _ henter := by
    have hentered : (entered m₁.store c values).From codes :=
      (hleads h.store).entered fun v hv d hd => hvalues d (hd ▸ hv)
    rw [enterScope_apply] at henter
    cases henter
    exact ⟨⟨hc.standsIn_body, hentered⟩, fun _ hbody _ => hbody hentered⟩
  read h hget := h.store.get hget _ rfl
  assign _ _ _ hv _ h := h.define hv
  lambda h := ⟨_, h.standsIn⟩
  printLine _ := id
  writeFile _ _ := id

/-- Calling a value from outside, too, binds closures of the programs alone. -/
theorem keeps_from_call {codes : List Code} (ctx : Context) (fuel : Nat) {callee : Value}
    {args : List Value} {m : Machine} (hstore : m.store.From codes) (hcallee : callee.From codes)
    (hargs : ∀ v ∈ args, v.From codes) :
    (call ctx fuel callee args m).Keeps (fun _ m' => m'.store.From codes)
      (fun _ v => v.From codes) m := by
  have hcall : (sourced codes ctx).Keeps m (call ctx fuel callee args m) := by
    apply Discipline.keeps_callValue
    rintro c inner m' rfl - henter
    rw [enterScope_apply] at henter
    cases henter
    have hentered : (entered m.store c args).From codes := hstore.entered hargs
    have hbody : Moment.Sourced codes ⟨[c.label], fuel, c.body, (m.store.extend c.scope).1,
        Machine.enter { m with store := LambdaScript.entered m.store c args }⟩ :=
      ⟨(hcallee c rfl).standsIn_body, hentered⟩
    exact ⟨(sourced codes ctx).keeps hbody, fun _ hlater _ => hlater hentered⟩
  exact hcall.imp (fun m' h => h hstore) fun v m' _ hv => hv

namespace Interpreter

/-! ## What a host does -/

/-- A host has used the interpreter; the programs that it has loaded are listed as they were
numbered. What it evaluates stands in these programs, and the values that it hands over are no
closures, or come from these programs. -/
inductive Used : Interpreter → List Code → Prop
  | build {names console limit globals}
      (h : ∀ name c, (name, .function (.closure c)) ∉ globals) :
      Used (build names console limit globals).1 []
  | load {i codes} (tree : Tree) (h : Used i codes) :
      Used (i.load tree).2 (codes ++ [(i.load tree).1])
  | evaluate {i i' codes names fuel scope e} (h : Used i codes) (he : e.StandsIn codes)
      (hrun : (evalCode names fuel scope e).EndsOn i i') : Used i' codes
  | call {i i' codes names fuel callee args} (h : Used i codes) (hcallee : callee.From codes)
      (hargs : ∀ v ∈ args, v.From codes)
      (hrun : (callValue names fuel callee args).EndsOn i i') : Used i' codes
  | define {i codes scope name value} (h : Used i codes) (hvalue : value.From codes) :
      Used { i with machine := i.machine.define scope name value } codes
  | newScope {i codes parent} (h : Used i codes) :
      Used { i with machine := (i.machine.withStore (·.newScope parent)).2 } codes
  | takePrinted {i codes} (h : Used i codes) : Used i.takePrinted.2 codes

variable {i i' : Interpreter} {codes : List Code} {names : Interner} {fuel : Nat} {e : Code}
  {scope : ScopeId}

/-- A session uses its interpreter. -/
theorem Session.used (h : Session i codes) : Used i codes := by
  induction h with
  | build h => exact .build h
  | load tree _ ih => exact ih.load tree
  | run _ hcode hrun ih => exact ih.evaluate (Expr.standsIn_of_mem hcode) hrun

/-- Whatever a host does, the closures that are bound come from the programs it has loaded. -/
theorem Used.store_from (h : Used i codes) : i.machine.store.From codes := by
  induction h with
  | @build names console limit globals h =>
    intro scope x c hc
    obtain ⟨around, s, ⟨root, hroot, -⟩, -⟩ :=
      (ready_build names console limit h).sound.fits scope x c hc
    contradiction
  | load tree _ ih => exact ih.subset (List.subset_append_left _ _)
  | @evaluate i i' codes names fuel scope e _ he hrun ih =>
    obtain ⟨m, hend, rfl⟩ := endsOn_evalCode hrun
    have hstart : Moment.Sourced codes ⟨[], fuel, e, scope, i.machine⟩ := ⟨he, ih⟩
    exact ((sourced _ _).keeps hstart).of_endsOn hend ih
  | call _ hcallee hargs hrun ih =>
    obtain ⟨m, hend, rfl⟩ := endsOn_onMachine hrun
    exact (keeps_from_call _ _ ih hcallee hargs).of_endsOn hend
  | define _ hvalue ih => exact ih.define hvalue
  | newScope _ ih => exact ih.newScope _
  | takePrinted _ ih => exact ih

/-- All lambda nodes have labels of their own. -/
theorem Used.numbered (h : Used i codes) : Numbered codes i.labels := by
  induction h with
  | build h => exact (ready_build _ _ _ h).numbered
  | load tree _ ih => exact ih.append tree
  | evaluate _ _ hrun ih =>
    obtain ⟨m, -, rfl⟩ := endsOn_evalCode hrun
    exact ih
  | call _ _ _ hrun ih =>
    obtain ⟨m, -, rfl⟩ := endsOn_onMachine hrun
    exact ih
  | define _ _ ih | newScope _ ih | takePrinted _ ih => exact ih

/-- Whatever is evaluated from then on stands in one of the programs. -/
theorem Used.standsIn (h : Used i codes) (he : e.StandsIn codes) {ctx : Context} {p : Moment}
    (hreaches : Reaches ctx ⟨[], fuel, e, scope, i.machine⟩ p) : p.code.StandsIn codes := by
  have hstart : Moment.Sourced codes ⟨[], fuel, e, scope, i.machine⟩ := ⟨he, h.store_from⟩
  exact ((sourced _ _).holds hstart hreaches).standsIn

end Interpreter

end LambdaScript
