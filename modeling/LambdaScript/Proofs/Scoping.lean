import LambdaScript.Proofs.Discipline
import LambdaScript.Proofs.Nesting
import LambdaScript.Interpreter
/-!
# Lexical scoping

In a `Sound` store every closure comes from a lambda node of a program and was made in a scope that
is shaped by the lambda nodes around it. Evaluation keeps stores sound, and evaluates every
expression in a scope that is shaped by the lambda nodes around the expression, wherever the closure
was made, kept or called (`lexical`). Only assignments outside of all lambda nodes make new global
variables (`Gains`).
-/

namespace LambdaScript

open Store

/-- The place of a moment in the text: the lambda nodes around its expression, the innermost of
which is the one whose body is being evaluated. -/
def Moment.StandsIn (p : Moment) (codes : List Code) (around : List Binder) : Prop :=
  (∃ root ∈ codes, Within root around p.code) ∧
    around.head?.map (·.label) = p.active.head?

/-- A moment has but one place in programs whose lambda nodes are numbered. -/
theorem Moment.StandsIn.eq {p : Moment} {codes : List Code} {next : Nat}
    {around around' : List Binder} (hcodes : Numbered codes next) (h : p.StandsIn codes around)
    (h' : p.StandsIn codes around') : around = around' := by
  obtain ⟨⟨root, hroot, hwithin⟩, hhead⟩ := h
  obtain ⟨⟨root', hroot', hwithin'⟩, hhead'⟩ := h'
  exact eq_of_within hcodes hroot hroot' hwithin hwithin' (hhead.trans hhead'.symm)

/-- The closure comes from a lambda node of one of the programs, and its scope is shaped by the
lambda nodes around that. -/
def Fits (codes : List Code) (global : ScopeId) (store : Store) (c : Closure) : Prop :=
  ∃ around s, (∃ root ∈ codes, Within root around (.lambda s c.label c.params c.body)) ∧
    Shaped global store c.scope around

/-- All closures bound to names fit, and the global scope is a root. -/
structure Sound (codes : List Code) (global : ScopeId) (store : Store) : Prop where
  root : store.parent? global = none
  lt_size : global < store.scopes.size
  fits : ∀ scope x c, store.binding? scope x = some (.function (.closure c)) →
    Fits codes global store c

variable {codes codes' : List Code} {global scope found : ScopeId} {store store' : Store}
  {x : Name} {value : Value} {c : Closure}

theorem Fits.mono (h : Fits codes global store c) (hext : Extends global store store') :
    Fits codes global store' c := by
  obtain ⟨around, s, hwithin, hshaped⟩ := h
  exact ⟨around, s, hwithin, hshaped.mono hext⟩

theorem Fits.subset (h : Fits codes global store c) (hcodes : codes ⊆ codes') :
    Fits codes' global store c := by
  obtain ⟨around, s, ⟨root, hroot, hwithin⟩, hshaped⟩ := h
  exact ⟨around, s, ⟨root, hcodes hroot, hwithin⟩, hshaped⟩

namespace Sound

theorem subset (h : Sound codes global store) (hcodes : codes ⊆ codes') :
    Sound codes' global store :=
  ⟨h.root, h.lt_size, fun scope x c hc => (h.fits scope x c hc).subset hcodes⟩

/-- A later store is sound if all that is bound there anew fits already. -/
theorem mono (h : Sound codes global store) (hext : Extends global store store')
    (hnew : ∀ scope x c, store'.binding? scope x = some (.function (.closure c)) →
      store.binding? scope x = some (.function (.closure c)) ∨ Fits codes global store c) :
    Sound codes global store' where
  root := (hext.parent?_eq _ h.lt_size).trans h.root
  lt_size := Nat.lt_of_lt_of_le h.lt_size hext.size_le
  fits scope x c hc := by
    rcases hnew scope x c hc with hold | hfits
    · exact (h.fits scope x c hold).mono hext
    · exact hfits.mono hext

theorem define (h : Sound codes global store) (hfound : store.Binds found x ∨ found = global)
    (hvalue : ∀ c, value = .function (.closure c) → Fits codes global store c) :
    Sound codes global (store.define found x value) := by
  refine h.mono (.define hfound) fun scope y c hc => ?_
  rw [binding?_define] at hc
  split at hc
  · exact .inr (hvalue c (Option.some.inj hc))
  · exact .inl hc

theorem entered (h : Sound codes global store) {args : List Value}
    (hargs : ∀ d, .function (.closure d) ∈ args → Fits codes global store d) :
    Sound codes global (entered store c args) := by
  refine h.mono (extends_entered global store c args) fun scope y d hd => ?_
  rcases eq_of_binding?_bindParams hd with hd | hd | hd
  · rw [binding?_extend] at hd
    exact .inl hd
  · contradiction
  · exact .inr (hargs d hd)

end Sound

/-! ## Names -/

section
variable {around : List Binder}

/-- A name has the value that the scope to which it belongs binds it to. -/
theorem Shaped.get (h : Shaped global store scope around) (x : Name) :
    ∃ found, owner? store scope around x = some found ∧
      store.get scope x = store.binding? found x ∧
      (¬store.Binds found x → found = global ∧ ∀ b ∈ around, x ∉ b.params) := by
  obtain ⟨found, howner, hlookup, hnone⟩ := h.owner x
  refine ⟨found, howner, ?_, hnone⟩
  rw [get_eq_lookup, hlookup]
  split
  · rfl
  · next hbinds => exact (binding?_eq_none hbinds).symm

/-- Setting a name changes the scope to which it belongs; inside a lambda node it must be bound
there. -/
theorem Shaped.target? (h : Shaped global store scope around) (x : Name) :
    ∃ found, owner? store scope around x = some found ∧
      store.target? scope x =
        (if store.Binds found x ∨ around = [] then some found else none) ∧
      (¬store.Binds found x → found = global ∧ ∀ b ∈ around, x ∉ b.params) := by
  obtain ⟨found, howner, hlookup, hnone⟩ := h.owner x
  refine ⟨found, howner, ?_, hnone⟩
  rw [Store.target?, hlookup]
  by_cases hbinds : store.Binds found x
  · simp only [hbinds, if_true, true_or]
  -- unbound names are made at the root alone
  · rw [if_neg hbinds]
    simp only [h.isRoot_iff, hbinds, false_or]
    by_cases haround : around = []
    · subst haround
      cases h with
      | global => rw [if_pos rfl, if_pos rfl, (hnone hbinds).1]
    · rw [if_neg haround, if_neg haround]

end

/-! ## Evaluation -/

section
variable {ctx : Context} {start p q : Moment} {m m' m'' : Machine}

/-- The moment is an assignment to `x` outside of all lambda nodes, and succeeds. -/
def Moment.Introduces (ctx : Context) (codes : List Code) (p : Moment) (x : Name) : Prop :=
  p.StandsIn codes [] ∧ (∃ s value, p.code = .assign s x value) ∧
    ∃ v m', p.outcome ctx = .done v m'

/-- Global variables that are new come from assignments outside of all lambda nodes. -/
def Gains (ctx : Context) (codes : List Code) (global : ScopeId) (start : Moment)
    (before after : Store) : Prop :=
  ∀ x, after.Binds global x → before.Binds global x ∨
    ∃ q, Reaches ctx start q ∧ q.Introduces ctx codes x

theorem Gains.refl (store : Store) : Gains ctx codes global start store store :=
  fun _ => .inl

theorem Gains.trans {store'' : Store} (h : Gains ctx codes global start store store')
    (h' : Gains ctx codes global start store' store'') :
    Gains ctx codes global start store store'' :=
  fun x hx => (h' x hx).elim (h x) .inr

/-- What is known of a moment that `start` reaches. -/
structure Scoped (ctx : Context) (codes : List Code) (global : ScopeId) (start p : Moment) :
    Prop where
  reaches : Reaches ctx start p
  sound : Sound codes global p.machine.store
  gains : Gains ctx codes global start start.machine.store p.machine.store
  shaped : ∃ around, p.StandsIn codes around ∧ Shaped global p.machine.store p.scope around

/-- How the store develops from `start` on. -/
structure Develops (ctx : Context) (codes : List Code) (global : ScopeId) (start : Moment)
    (before after : Store) : Prop where
  sound : Sound codes global before → Sound codes global after
  extended : Extends global before after
  gains : Gains ctx codes global start before after

theorem Develops.refl (store : Store) : Develops ctx codes global start store store :=
  ⟨id, .refl global store, .refl store⟩

theorem Develops.trans {store'' : Store} (h : Develops ctx codes global start store store')
    (h' : Develops ctx codes global start store' store'') :
    Develops ctx codes global start store store'' :=
  ⟨h'.sound ∘ h.sound, h.extended.trans h'.extended, h.gains.trans h'.gains⟩

/-- A scope is made without any effect on the global variables. -/
theorem gains_entered (hlt : global < store.scopes.size) (args : List Value) :
    Gains ctx codes global start store (entered store c args) := by
  intro x hx
  rw [entered, binds_bindParams (lt_size_extend store c.scope)] at hx
  rcases hx with hx | ⟨hnew, -⟩
  · rw [Binds, binding?_extend] at hx
    exact .inl hx
  · exact absurd hnew (Nat.ne_of_gt hlt)

theorem eval_var (ctx : Context) (fuel : Nat) (s : Span) (x : Name) (scope : ScopeId)
    (m : Machine) :
    eval ctx (fuel + 1) (.var s x) scope m = match m.store.get scope x with
      | some value => .done value m
      | none => .failed ⟨.undefinedVariable (ctx.names.spelling x), some s⟩ m := by
  simp only [eval, Run.mapError, evalNode, readVariable]
  cases m.store.get scope x <;> rfl

theorem eval_assign {fuel : Nat} {s : Span} {e : Code} {v : Value}
    (hvalue : eval ctx fuel e scope m = .done v m') :
    eval ctx (fuel + 1) (.assign s x e) scope m = match m'.store.target? scope x with
      | some found => .done v (m'.define found x v)
      | none => .failed ⟨.undefinedVariable (ctx.names.spelling x), some s⟩ m' := by
  simp only [eval, Run.mapError, evalNode, Run.bind_apply, hvalue, setVariable]
  cases m'.store.target? scope x <;> rfl

namespace Scoped

variable {active : List Nat} {fuel : Nat} {e e' : Code}

theorem part (h : Scoped ctx codes global start ⟨active, fuel + 1, e, scope, m⟩)
    (hask : Asks (eval ctx fuel) scope fuel m e e' m')
    (hleads : Develops ctx codes global start m.store m'.store) :
    Scoped ctx codes global start ⟨active, fuel, e', scope, m'⟩ where
  reaches := h.reaches.tail (.part hask)
  sound := hleads.sound h.sound
  gains := h.gains.trans hleads.gains
  shaped := by
    obtain ⟨around, ⟨⟨root, hroot, hwithin⟩, hhead⟩, hshaped⟩ := h.shaped
    refine ⟨around, ⟨⟨root, hroot, ?_⟩, hhead⟩, hshaped.mono hleads.extended⟩
    exact hwithin.part (mem_parts_of_asks hask)

theorem enter {inner : ScopeId} {values : List Value}
    (h : Scoped ctx codes global start ⟨active, fuel + 1, e, scope, m⟩)
    (henters : Enters ctx (eval ctx fuel) scope m e c inner m''.enter)
    (hleads : Develops ctx codes global start m.store m'.store)
    (hc : Fits codes global m'.store c)
    (hvalues : ∀ d, .function (.closure d) ∈ values → Fits codes global m'.store d)
    (henter : enterScope c values m' = .done inner m'') :
    Scoped ctx codes global start ⟨c.label :: active, fuel, c.body, inner, m''.enter⟩ ∧
      Develops ctx codes global start m'.store m''.store := by
  obtain ⟨around, s, ⟨root, hroot, hwithin⟩, hshaped⟩ := hc
  rw [enterScope_apply] at henter
  cases henter
  have hdevelops : Develops ctx codes global start m'.store (entered m'.store c values) :=
    ⟨fun hsound => hsound.entered hvalues, extends_entered global m'.store c values,
      gains_entered hshaped.global_lt_size values⟩
  refine ⟨⟨h.reaches.tail (.body henters), ?_, ?_, ?_⟩, hdevelops⟩
  · exact (hleads.trans hdevelops).sound h.sound
  · exact h.gains.trans (hleads.trans hdevelops).gains
  · exact ⟨⟨c.label, c.params⟩ :: around, ⟨⟨root, hroot, hwithin.body⟩, rfl⟩,
      shaped_entered values hshaped rfl⟩

theorem read {s : Span} (h : Scoped ctx codes global start ⟨active, fuel, .var s x, scope, m⟩)
    (hget : m.store.get scope x = some (.function (.closure c))) :
    Fits codes global m.store c := by
  obtain ⟨around, -, hshaped⟩ := h.shaped
  obtain ⟨found, -, hfound, -⟩ := hshaped.get x
  exact h.sound.fits found x c (hfound.symm.trans hget)

theorem assign {s : Span} {v : Value}
    (h : Scoped ctx codes global start ⟨active, fuel + 1, .assign s x e, scope, m⟩)
    (hvalue : eval ctx fuel e scope m = .done v m')
    (hleads : Develops ctx codes global start m.store m'.store)
    (hv : ∀ c, v = .function (.closure c) → Fits codes global m'.store c)
    (htarget : m'.store.target? scope x = some found) :
    Develops ctx codes global start m'.store (m'.store.define found x v) := by
  obtain ⟨around, hstands, hshaped⟩ := h.shaped
  obtain ⟨owner, -, howner, hnone⟩ := (hshaped.mono hleads.extended).target? x
  rw [htarget] at howner
  split at howner
  · next hor =>
    obtain rfl := Option.some.inj howner
    have hfound : m'.store.Binds found x ∨ found = global :=
      (Decidable.em (m'.store.Binds found x)).imp id fun hnot => (hnone hnot).1
    refine ⟨fun hsound => hsound.define hfound hv, .define hfound, fun y hy => ?_⟩
    rcases (binds_define global y).mp hy with hy | ⟨rfl, rfl, -⟩
    · exact .inl hy
    · -- the global scope is to change: it binds the name, or this is outside of lambda nodes
      rcases hor with hbinds | rfl
      · exact .inl hbinds
      · have hend := eval_assign (s := s) (x := x) hvalue
        rw [htarget] at hend
        exact .inr ⟨_, h.reaches, hstands, ⟨s, e, rfl⟩, v, _, hend⟩
  · contradiction

theorem lambda {s : Span} {label : Nat} {params : List Name}
    (h : Scoped ctx codes global start ⟨active, fuel, .lambda s label params e, scope, m⟩) :
    Fits codes global m.store ⟨label, params, e, scope⟩ := by
  obtain ⟨around, ⟨hwithin, -⟩, hshaped⟩ := h.shaped
  exact ⟨around, s, hwithin, hshaped⟩

end Scoped

/-- Evaluation keeps to lexical scoping. -/
def lexical (ctx : Context) (codes : List Code) (global : ScopeId) (start : Moment) :
    Discipline ctx where
  Holds := Scoped ctx codes global start
  Fits := Fits codes global
  Leads m m' := Develops ctx codes global start m.store m'.store
  leads_refl m := .refl m.store
  leads_trans h h' := h.trans h'
  fits_of_leads h hc := hc.mono h.extended
  part h hask hleads := h.part hask hleads
  enter h henters hleads hc hvalues _ henter :=
    (h.enter henters hleads hc hvalues henter).imp_right fun hdevelops _ => hdevelops.trans
  read h hget := h.read hget
  assign h hvalue hleads hv htarget := h.assign hvalue hleads hv htarget
  lambda h := h.lambda
  printLine _ := .refl _
  writeFile _ _ := .refl _

/-! ## Every moment -/

/-- What lexical scoping says of one moment of the evaluation that begins at `start`: the moment's
expression stands inside the lambda nodes `around`. -/
structure LexicalAt (ctx : Context) (codes : List Code) (global : ScopeId) (start p : Moment)
    (around : List Binder) : Prop where
  length_chain : (p.machine.store.chain p.scope).length = around.length + 1
  getLast?_chain : (p.machine.store.chain p.scope).getLast? = some global
  isRoot_global : p.machine.store.isRoot global = true
  /-- The scope of each lambda node binds exactly its parameters. -/
  binds_chain : ∀ (i : Nat) (b : Binder) (s : ScopeId), around[i]? = some b →
    (p.machine.store.chain p.scope)[i]? = some s → ∀ x, p.machine.store.Binds s x ↔ x ∈ b.params
  /-- A variable is read where it belongs. -/
  var : ∀ fuel s x, p.fuel = fuel + 1 → p.code = .var s x →
    ∃ found, owner? p.machine.store p.scope around x = some found ∧
      p.outcome ctx = match p.machine.store.binding? found x with
        | some value => .done value p.machine
        | none => .failed ⟨.undefinedVariable (ctx.names.spelling x), some s⟩ p.machine
  /-- A variable is set where it belongs, once its value is known. -/
  assign : ∀ fuel s x e v m, p.fuel = fuel + 1 → p.code = .assign s x e →
    eval ctx fuel e p.scope p.machine = .done v m →
    ∃ found, owner? p.machine.store p.scope around x = some found ∧
      p.outcome ctx = if m.store.Binds found x ∨ around = [] then .done v (m.define found x v)
        else .failed ⟨.undefinedVariable (ctx.names.spelling x), some s⟩ m
  /-- A name is missed only if it is no parameter and not bound globally at that time. -/
  undefined : ∀ name m, p.Raises ctx (.undefinedVariable name) m →
    ∃ x, name = ctx.names.spelling x ∧
      ((∃ s, p.code = .var s x) ∨ ∃ s e, p.code = .assign s x e) ∧
      (∀ b ∈ around, x ∉ b.params) ∧ ¬m.store.Binds global x
  gains : Gains ctx codes global start start.machine.store p.machine.store

theorem Shaped.outcome_var {around : List Binder} (h : Shaped global m.store scope around)
    (fuel : Nat) (s : Span) (x : Name) :
    ∃ found, owner? m.store scope around x = some found ∧
      eval ctx (fuel + 1) (.var s x) scope m = match m.store.binding? found x with
        | some value => .done value m
        | none => .failed ⟨.undefinedVariable (ctx.names.spelling x), some s⟩ m := by
  obtain ⟨found, howner, hget, -⟩ := h.get x
  refine ⟨found, howner, ?_⟩
  rw [← hget]
  exact eval_var ctx fuel s x scope m

namespace Scoped

variable {around : List Binder} {active : List Nat} {fuel : Nat} {s : Span} {e : Code} {v : Value}

/-- Between an assignment and its value the scope keeps its shape and its chain. -/
theorem shaped_value (h : Scoped ctx codes global start ⟨active, fuel + 1, .assign s x e, scope, m⟩)
    (hshaped : Shaped global m.store scope around)
    (hvalue : eval ctx fuel e scope m = .done v m') :
    Shaped global m'.store scope around ∧
      owner? m'.store scope around x = owner? m.store scope around x := by
  have hleads := ((lexical ctx codes global start).keeps_of_asks h .value hvalue).1
  exact ⟨hshaped.mono hleads.extended, hshaped.owner?_eq hleads.extended x⟩

theorem outcome_assign
    (h : Scoped ctx codes global start ⟨active, fuel + 1, .assign s x e, scope, m⟩)
    (hshaped : Shaped global m.store scope around)
    (hvalue : eval ctx fuel e scope m = .done v m') :
    ∃ found, owner? m.store scope around x = some found ∧
      eval ctx (fuel + 1) (.assign s x e) scope m =
        if m'.store.Binds found x ∨ around = [] then .done v (m'.define found x v)
        else .failed ⟨.undefinedVariable (ctx.names.spelling x), some s⟩ m' := by
  obtain ⟨hshaped', hsame⟩ := h.shaped_value hshaped hvalue
  obtain ⟨found, howner, htarget, -⟩ := hshaped'.target? x
  rw [hsame] at howner
  refine ⟨found, howner, ?_⟩
  rw [eval_assign hvalue, htarget]
  by_cases hor : m'.store.Binds found x ∨ around = []
  · rw [if_pos hor, if_pos hor]
  · rw [if_neg hor, if_neg hor]

/-- What is missing belongs to the global scope. -/
theorem not_binds_of_raises {p : Moment} {name : String}
    (h : Scoped ctx codes global start p) (hshaped : Shaped global p.machine.store p.scope around)
    (hraises : p.Raises ctx (.undefinedVariable name) m') :
    ∃ x, name = ctx.names.spelling x ∧
      ((∃ s, p.code = .var s x) ∨ ∃ s e, p.code = .assign s x e) ∧
      (∀ b ∈ around, x ∉ b.params) ∧ ¬m'.store.Binds global x := by
  obtain ⟨active, _, e, scope, m⟩ := p
  obtain ⟨fuel, rfl, hfaults⟩ := hraises
  obtain ⟨x, hname, hcase⟩ := hfaults.of_undefinedVariable
  rcases hcase with ⟨s, rfl, rfl, hmissing⟩ | ⟨s, value, v, rfl, hvalue, hmissing⟩
  · obtain ⟨found, -, hget, hnone⟩ := hshaped.get x
    have hbinds : ¬m'.store.Binds found x := by
      rw [Binds, ← hget, hmissing]
      exact Bool.false_ne_true
    obtain ⟨rfl, houtside⟩ := hnone hbinds
    exact ⟨x, hname, .inl ⟨s, rfl⟩, houtside, hbinds⟩
  · -- the value of the assignment was evaluated first, so the shape is wanted behind it
    have hshaped' := (h.shaped_value hshaped hvalue).1
    obtain ⟨found, -, htarget, hnone⟩ := hshaped'.target? x
    have hbinds : ¬m'.store.Binds found x := by
      intro hbinds
      rw [hmissing, if_pos (.inl hbinds)] at htarget
      contradiction
    obtain ⟨rfl, houtside⟩ := hnone hbinds
    exact ⟨x, hname, .inr ⟨s, value, rfl⟩, houtside, hbinds⟩

theorem lexicalAt (h : Scoped ctx codes global start p)
    (hshaped : Shaped global p.machine.store p.scope around) :
    LexicalAt ctx codes global start p around where
  length_chain := hshaped.length_chain
  getLast?_chain := hshaped.getLast?_chain
  isRoot_global := by rw [isRoot, hshaped.root, Option.isNone_none]
  binds_chain i b s hb hs x := hshaped.binds_chain hb hs x
  var fuel s x hfuel hcode := by
    obtain ⟨active, _, _, scope, m⟩ := p
    subst hfuel hcode
    exact hshaped.outcome_var fuel s x
  assign fuel s x e v m' hfuel hcode hvalue := by
    obtain ⟨active, _, _, scope, m⟩ := p
    subst hfuel hcode
    exact h.outcome_assign hshaped hvalue
  undefined name m' hraises := h.not_binds_of_raises hshaped hraises
  gains := h.gains

end Scoped

end

end LambdaScript
