import LambdaScript.Proofs.Bindings
import LambdaScript.Proofs.Discipline
/-!
# What evaluation can reach

A scope leads to the scope around it and to the scopes in which the closures that it binds were made
(`Store.Link`). Evaluation in a scope touches only what can be reached from there
(`keeps_touched`).

The invariant is about a region of scopes which no link leaves (`Region.Encloses`). It holds the
scope of every expression that comes to be evaluated, also inside the bodies of closures, and the
scopes that are made on the way; nothing is bound outside of it.
-/

namespace LambdaScript

namespace Store

/-- What a scope leads to. -/
inductive Link (store : Store) : ScopeId → ScopeId → Prop
  | parent {scope outer} (h : store.parent? scope = some outer) : Link store scope outer
  | captured {scope x c} (h : store.binding? scope x = some (.function (.closure c))) :
      Link store scope c.scope

/-- The scopes that can be reached from a scope, itself included. -/
abbrev Reachable (store : Store) : ScopeId → ScopeId → Prop := Relation.ReflTransGen store.Link

/-- All scopes that a scope of the store leads to are there. -/
def Whole (store : Store) : Prop := ∀ s t, store.Link s t → t < store.scopes.size

variable {store : Store} {scope found s t : ScopeId} {x : Name} {v : Value}

/-- What is not there yet leads nowhere. -/
theorem Link.lt_size (h : store.Link s t) : s < store.scopes.size := by
  cases h with
  | parent hparent => exact lt_size_of_parent? hparent
  | captured hbinding =>
    have hbinds := binds_iff.mpr ⟨_, hbinding⟩
    exact Nat.lt_of_not_le fun hle => not_binds_of_size_le hle hbinds

theorem reachable_of_lookup (h : store.lookup scope x = some found) :
    store.Reachable scope found := by
  fun_induction lookup store scope x with
  | case1 scope value hvalue =>
    cases h
    exact .refl
  | case2 scope hnone outer hparent ih => exact .head (.parent hparent) (ih h)
  | case3 scope hnone hparent => contradiction

theorem reachable_of_target? (h : store.target? scope x = some found) :
    store.Reachable scope found := by
  unfold target? at h
  split at h
  · next other hlookup =>
    cases h
    exact reachable_of_lookup hlookup
  · split at h
    · cases h
      exact .refl
    · contradiction

/-- A closure that a name stands for was made in a scope that can be reached. -/
theorem reachable_of_get {c : Closure}
    (h : store.get scope x = some (.function (.closure c))) : store.Reachable scope c.scope := by
  rw [get_eq_lookup] at h
  obtain ⟨found, hlookup, hbinding⟩ := Option.bind_eq_some_iff.mp h
  exact (reachable_of_lookup hlookup).tail (.captured hbinding)

theorem Whole.lt_size (h : store.Whole) (hscope : scope < store.scopes.size)
    (hreach : store.Reachable scope s) : s < store.scopes.size := by
  induction hreach with
  | refl => exact hscope
  | tail _ hlink _ => exact h _ _ hlink

/-- All closures that are bound were made in scopes that are there. -/
theorem Whole.bindsOnly (h : store.Whole) : store.BindsOnly (·.scope < store.scopes.size) :=
  fun _ _ _ hc => h _ _ (.captured hc)

/-- Binding a name adds a link at most to the scope of the value. -/
theorem Link.of_define (h : (store.define found x v).Link s t) :
    store.Link s t ∨ s = found ∧ ∃ c, v = .function (.closure c) ∧ t = c.scope := by
  cases h with
  | parent hparent =>
    rw [parent?_define] at hparent
    exact .inl (.parent hparent)
  | @captured y c hbinding =>
    rw [binding?_define] at hbinding
    split at hbinding
    · next hfound => exact .inr ⟨hfound.1.symm, c, Option.some.inj hbinding, rfl⟩
    · exact .inl (.captured hbinding)

/-- The scope of a body leads to the scope of the closure and to those of the arguments. -/
theorem Link.of_entered {c : Closure} {args : List Value} (h : (entered store c args).Link s t) :
    store.Link s t ∨ t = c.scope ∨ ∃ d, .function (.closure d) ∈ args ∧ t = d.scope := by
  cases h with
  | parent hparent =>
    rw [entered, parent?_bindParams, parent?_extend] at hparent
    split at hparent
    · exact .inr (.inl (Option.some.inj (Option.eq_some_of_filter_eq_some hparent)).symm)
    · exact .inl (.parent hparent)
  | @captured y d hbinding =>
    rcases eq_of_binding?_bindParams hbinding with hold | hfalse | harg
    · rw [binding?_extend] at hold
      exact .inl (.captured hold)
    · contradiction
    · exact .inr (.inr ⟨d, harg, rfl⟩)

/-- Parameters are bound in the new scope alone. -/
theorem binding?_entered_of_lt (c : Closure) (args : List Value) (h : s < store.scopes.size)
    (y : Name) : (entered store c args).binding? s y = store.binding? s y := by
  have hne : (store.extend c.scope).1 ≠ s := Nat.ne_of_gt h
  have hparams : ∀ (later : Store) (params : List Name) (values : List Value),
      (bindParams later (store.extend c.scope).1 params values).binding? s y =
        later.binding? s y := by
    intro later params values
    fun_induction bindParams later (store.extend c.scope).1 params values with
    | case1 => rfl
    | case2 later param params ih => rw [ih, binding?_define, if_neg fun hand => hne hand.1]
    | case3 later param params arg args ih =>
      rw [ih, binding?_define, if_neg fun hand => hne hand.1]
  rw [entered, hparams, binding?_extend]

end Store

open Store

/-! ## Regions -/

/-- Some of the scopes of a store, given how many there are. All that are made from the time of
`base` scopes on belong to the region. -/
structure Region where
  base : Nat
  Mem : Nat → ScopeId → Prop
  mono : ∀ {size size' s}, size ≤ size' → Mem size s → Mem size' s
  /-- Scopes that were there before are not taken in. -/
  stable : ∀ {size size' s}, s < size → size ≤ size' → Mem size' s → Mem size s
  fresh : ∀ {size}, base ≤ size → Mem (size + 1) size

namespace Region

/-- What can be reached from a scope of a store, and all scopes made later. -/
def reached (store : Store) (scope : ScopeId) : Region where
  base := store.scopes.size
  Mem _ s := store.Reachable scope s ∨ store.scopes.size ≤ s
  mono _ h := h
  stable _ _ h := h
  fresh h := .inr h

/-- All the scopes that there are. -/
def present : Region where
  base := 0
  Mem size s := s < size
  mono hle h := Nat.lt_of_lt_of_le h hle
  stable h _ _ := h
  fresh _ := Nat.lt_succ_self _

/-- No link leaves the region. -/
structure Encloses (G : Region) (store : Store) : Prop where
  base_le : G.base ≤ store.scopes.size
  closed : ∀ s t, G.Mem store.scopes.size s → store.Link s t → G.Mem store.scopes.size t

/-- A later store, in which nothing has changed outside of the region. -/
structure Bounds (G : Region) (before after : Store) : Prop where
  size_le : before.scopes.size ≤ after.scopes.size
  parent?_eq : ∀ s, s < before.scopes.size → after.parent? s = before.parent? s
  binds : ∀ s x, before.Binds s x → after.Binds s x
  unchanged : ∀ s, s < before.scopes.size → ¬G.Mem before.scopes.size s →
    ∀ x, after.binding? s x = before.binding? s x
  encloses : G.Encloses before → G.Encloses after

variable {G : Region} {store before after later : Store} {scope found s t : ScopeId} {x : Name}
  {v : Value}

theorem Encloses.of_reachable (h : G.Encloses store) (hscope : G.Mem store.scopes.size scope)
    (hreach : store.Reachable scope s) : G.Mem store.scopes.size s := by
  induction hreach with
  | refl => exact hscope
  | tail _ hlink ih => exact h.closed _ _ ih hlink

theorem encloses_reached (store : Store) (scope : ScopeId) :
    (reached store scope).Encloses store where
  base_le := Nat.le_refl _
  closed s t hs hlink := by
    rcases hs with hs | hs
    · exact .inl (hs.tail hlink)
    · exact absurd hlink.lt_size (Nat.not_lt_of_le hs)

theorem encloses_present_iff : present.Encloses store ↔ store.Whole := by
  constructor
  · exact fun h s t hlink => h.closed s t hlink.lt_size hlink
  · exact fun h => ⟨Nat.zero_le _, fun s t _ hlink => h s t hlink⟩

namespace Bounds

theorem refl (store : Store) : G.Bounds store store :=
  ⟨Nat.le_refl _, fun _ _ => rfl, fun _ _ h => h, fun _ _ _ _ => rfl, id⟩

theorem trans (h : G.Bounds before after) (h' : G.Bounds after later) : G.Bounds before later where
  size_le := Nat.le_trans h.size_le h'.size_le
  parent?_eq s hs := (h'.parent?_eq s (Nat.lt_of_lt_of_le hs h.size_le)).trans (h.parent?_eq s hs)
  binds s x hbinds := h'.binds s x (h.binds s x hbinds)
  unchanged s hs hout x := by
    have hout' : ¬G.Mem after.scopes.size s := fun hmem => hout (G.stable hs h.size_le hmem)
    rw [h'.unchanged s (Nat.lt_of_lt_of_le hs h.size_le) hout', h.unchanged s hs hout]
  encloses := h'.encloses ∘ h.encloses

/-- A name is bound inside of the region, to a value from inside. -/
theorem define (hfound : G.Mem before.scopes.size found)
    (hv : ∀ c, v = .function (.closure c) → G.Mem before.scopes.size c.scope) :
    G.Bounds before (before.define found x v) where
  size_le := Nat.le_of_eq size_define.symm
  parent?_eq s _ := parent?_define s
  binds s y hbinds := (binds_define s y).mpr (.inl hbinds)
  unchanged s _ hout y := by
    have hne : found ≠ s := by
      rintro rfl
      exact hout hfound
    rw [binding?_define, if_neg fun hand => hne hand.1]
  encloses h := by
    refine ⟨by rw [size_define]; exact h.base_le, fun s t hs hlink => ?_⟩
    rw [size_define] at hs ⊢
    rcases hlink.of_define with hlink | ⟨-, c, hc, rfl⟩
    · exact h.closed s t hs hlink
    · exact hv c hc

/-- A body is entered, the closure and the arguments being from inside of the region. -/
theorem entered {c : Closure} {args : List Value} (hbase : G.base ≤ before.scopes.size)
    (hc : G.Mem before.scopes.size c.scope)
    (hargs : ∀ d, .function (.closure d) ∈ args → G.Mem before.scopes.size d.scope) :
    G.Bounds before (entered before c args) := by
  have hsize := size_entered before c args
  have hle : before.scopes.size ≤ before.scopes.size + 1 := Nat.le_succ _
  refine ⟨by rw [hsize]; exact hle, (extends_entered 0 before c args).parent?_eq, ?_, ?_, ?_⟩
  · intro s x hbinds
    rw [LambdaScript.entered, binds_bindParams (lt_size_extend before c.scope), Binds,
      binding?_extend]
    exact .inl hbinds
  · exact fun s hs _ x => binding?_entered_of_lt c args hs x
  · intro h
    refine ⟨by rw [hsize]; exact Nat.le_trans hbase hle, fun s t hs hlink => ?_⟩
    rw [hsize] at hs ⊢
    rcases hlink.of_entered with hlink | rfl | ⟨d, hd, rfl⟩
    · exact G.mono hle (h.closed s t (G.stable hlink.lt_size hle hs) hlink)
    · exact G.mono hle hc
    · exact G.mono hle (hargs d hd)

end Bounds

/-! ## Evaluation -/

/-- The expression is to be evaluated inside of the region. -/
structure Holds (G : Region) (p : Moment) : Prop where
  encloses : G.Encloses p.machine.store
  mem : G.Mem p.machine.store.scopes.size p.scope

/-- Evaluation stays inside of a region. -/
def discipline (G : Region) (ctx : Context) : Discipline ctx where
  Holds := G.Holds
  Fits store c := G.Mem store.scopes.size c.scope
  Leads m m' := G.Bounds m.store m'.store ∧ m'.depth = m.depth
  leads_refl m := ⟨.refl m.store, rfl⟩
  leads_trans h h' := ⟨h.1.trans h'.1, h'.2.trans h.2⟩
  fits_of_leads h hc := G.mono h.1.size_le hc
  part h _ hleads := ⟨hleads.1.encloses h.encloses, G.mono hleads.1.size_le h.mem⟩
  enter {_ _ _ _ _ _ _ c values m₁ _ _} h _ hleads hc hvalues _ henter := by
    have hencloses := hleads.1.encloses h.encloses
    have hbounds := Bounds.entered hencloses.base_le hc hvalues
    rw [enterScope_apply] at henter
    cases henter
    refine ⟨⟨hbounds.encloses hencloses, ?_⟩, fun m₃ hbody => ⟨hbounds.trans hbody.1, ?_⟩⟩
    · show G.Mem (entered m₁.store c values).scopes.size m₁.store.scopes.size
      rw [size_entered]
      exact G.fresh hencloses.base_le
    · -- the body is left at the depth at which it was entered
      show m₃.depth - 1 = m₁.depth
      rw [hbody.2]
      rfl
  read h hget := h.encloses.of_reachable h.mem (reachable_of_get hget)
  assign h _ hleads hv htarget := by
    have hencloses := hleads.1.encloses h.encloses
    have hfound := hencloses.of_reachable (G.mono hleads.1.size_le h.mem)
      (reachable_of_target? htarget)
    exact ⟨.define hfound hv, rfl⟩
  lambda h := h.mem
  printLine _ := ⟨.refl _, rfl⟩
  writeFile _ _ := ⟨.refl _, rfl⟩

end Region

/-! ## What evaluation touches -/

namespace Store

/-- A later store, in which no other bindings have changed than those that could be reached from a
scope, and from which nothing else can be reached now. -/
structure Touched (scope : ScopeId) (before after : Store) : Prop where
  size_le : before.scopes.size ≤ after.scopes.size
  parent?_eq : ∀ s, s < before.scopes.size → after.parent? s = before.parent? s
  binds : ∀ s x, before.Binds s x → after.Binds s x
  unchanged : ∀ s, s < before.scopes.size → ¬before.Reachable scope s →
    ∀ x, after.binding? s x = before.binding? s x
  reaches : ∀ s t, before.Reachable scope s ∨ before.scopes.size ≤ s → after.Reachable s t →
    before.Reachable scope t ∨ before.scopes.size ≤ t

/-- Nothing can be reached from both scopes. -/
def Apart (store : Store) (a b : ScopeId) : Prop :=
  ∀ s, store.Reachable a s → ¬store.Reachable b s

/-- Scopes that can be reached from a value. -/
def ReachableFrom (store : Store) (v : Value) (s : ScopeId) : Prop :=
  ∃ c, v = .function (.closure c) ∧ store.Reachable c.scope s

variable {before after : Store} {a b s t : ScopeId}

namespace Touched

/-- The bindings and parents of what is apart stay as they are. -/
theorem link_iff (h : Touched a before after) (hs : s < before.scopes.size)
    (hout : ¬before.Reachable a s) : after.Link s t ↔ before.Link s t := by
  have hparent := h.parent?_eq s hs
  have hbinding := h.unchanged s hs hout
  constructor
  · rintro (hlink | hlink)
    · exact .parent (hparent ▸ hlink)
    · exact .captured (hbinding _ ▸ hlink)
  · rintro (hlink | hlink)
    · exact .parent (hparent.trans hlink)
    · exact .captured ((hbinding _).trans hlink)

theorem reachable_iff (h : Touched a before after) (hwhole : before.Whole)
    (hb : b < before.scopes.size) (hapart : before.Apart a b) :
    after.Reachable b s ↔ before.Reachable b s := by
  constructor
  · intro hreach
    induction hreach with
    | refl => exact .refl
    | tail _ hlink ih =>
      exact ih.tail ((h.link_iff (hwhole.lt_size hb ih) fun ha => hapart _ ha ih).mp hlink)
  · intro hreach
    induction hreach with
    | refl => exact .refl
    | tail hreach hlink ih =>
      have hlt := hwhole.lt_size hb hreach
      exact ih.tail ((h.link_iff hlt fun ha => hapart _ ha hreach).mpr hlink)

/-- What was reachable from `a`, and what is new, stays apart from `b`. -/
theorem not_reachable (h : Touched a before after) (hwhole : before.Whole)
    (hb : b < before.scopes.size) (hapart : before.Apart a b)
    (hs : before.Reachable a s ∨ before.scopes.size ≤ s) (hreach : after.Reachable s t) :
    ¬after.Reachable b t := by
  rw [h.reachable_iff hwhole hb hapart]
  intro hbt
  rcases h.reaches s t hs hreach with hat | hnew
  · exact hapart t hat hbt
  · exact absurd (hwhole.lt_size hb hbt) (Nat.not_lt_of_le hnew)

theorem apart (h : Touched a before after) (hwhole : before.Whole)
    (hb : b < before.scopes.size) (hapart : before.Apart a b) : after.Apart a b :=
  fun _ => h.not_reachable hwhole hb hapart (.inl .refl)

end Touched
end Store

section
variable {scope : ScopeId} {m : Machine}

/-- Evaluation touches only what can be reached, and its value leads nowhere else. -/
theorem keeps_touched (ctx : Context) (fuel : Nat) (e : Code) (scope : ScopeId) (m : Machine) :
    (eval ctx fuel e scope m).Keeps
      (fun m m' => m.store.Touched scope m'.store ∧ m'.depth = m.depth)
      (fun m' v => ∀ s, m'.store.ReachableFrom v s →
        m.store.Reachable scope s ∨ m.store.scopes.size ≤ s) m := by
  have hstart : (Region.reached m.store scope).Holds ⟨[], fuel, e, scope, m⟩ :=
    ⟨Region.encloses_reached m.store scope, .inl .refl⟩
  have hkeeps := ((Region.reached m.store scope).discipline ctx).keeps hstart
  refine hkeeps.imp (fun m' h => ⟨?_, h.2⟩) (fun v m' h hv s => ?_)
  · obtain ⟨hbounds, -⟩ := h
    refine ⟨hbounds.size_le, hbounds.parent?_eq, hbounds.binds, fun s hs hout => ?_, ?_⟩
    · exact hbounds.unchanged s hs fun hmem => hmem.elim hout (Nat.not_le_of_lt hs)
    · exact fun s t hs hreach => (hbounds.encloses hstart.encloses).of_reachable hs hreach
  · rintro ⟨c, rfl, hreach⟩
    exact (h.1.encloses hstart.encloses).of_reachable (hv c rfl) hreach

/-- Links keep leading to scopes that are there. -/
theorem keeps_whole (ctx : Context) (fuel : Nat) (e : Code) (hscope : scope < m.store.scopes.size)
    (hwhole : m.store.Whole) :
    (eval ctx fuel e scope m).Keeps (fun _ m' => m'.store.Whole) (fun _ _ => True) m := by
  have hstart : Region.present.Holds ⟨[], fuel, e, scope, m⟩ :=
    ⟨Region.encloses_present_iff.mpr hwhole, hscope⟩
  have hkeeps := (Region.present.discipline ctx).keeps hstart
  refine hkeeps.imp (fun m' h => ?_) (fun _ _ _ _ => trivial)
  exact Region.encloses_present_iff.mp (h.1.encloses hstart.encloses)

end
end LambdaScript
