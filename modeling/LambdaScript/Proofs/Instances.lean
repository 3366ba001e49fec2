import LambdaScript.Proofs.Hosts
import LambdaScript.Proofs.Reachability
import LambdaScript.Proofs.CallOrder
/-!
# Functions that are made once

A closure is `MadeBy` a lambda node in a scope. The lambda nodes that an expression evaluates in its
own scope are those outside of all other lambda nodes in it (`Expr.own`). Before an expression is
evaluated for the first time in its scope none of them has made a function there. This is so for
every expression that is reached, except for what stands in a loop (`Looped`): no other expression
evaluates a part twice, and each body has a scope of its own (`lacks_of_reaches`).
-/

namespace LambdaScript

open Store

/-! ## The lambda nodes of a scope -/

namespace Expr

mutual

/-- The labels of the lambda nodes of an expression that are evaluated in its scope. -/
def own : Code → List Nat
  | number _ _ | string _ _ | bool _ _ | var _ _ => []
  | assign _ _ value => own value
  | binary _ _ left right => own left ++ own right
  | ifThen _ condition thenBranch => own condition ++ own thenBranch
  | ifElse _ condition thenBranch elseBranch =>
    own condition ++ own thenBranch ++ own elseBranch
  | loop _ condition body => own condition ++ own body
  | seq _ items => ownAll items
  | lambda _ label _ _ => [label]
  | call _ callee args => own callee ++ ownAll args

/-- The labels of the lambda nodes of a list of expressions. -/
def ownAll : List Code → List Nat
  | [] => []
  | item :: items => own item ++ ownAll items

end

theorem ownAll_eq (items : List Code) : ownAll items = items.flatMap own := by
  induction items with
  | nil => rfl
  | cons item items ih => rw [ownAll, ih, List.flatMap_cons]

/-- Only a lambda node evaluates a lambda node itself, all others leave it to their parts. -/
theorem own_eq_or (e : Code) :
    (∃ s label params body, e = .lambda s label params body) ∨ e.own = e.parts.flatMap own := by
  cases e with
  | lambda s label params body => exact .inl ⟨s, label, params, body, rfl⟩
  | seq s items => exact .inr (ownAll_eq items)
  | call s callee args => exact .inr (by rw [own, ownAll_eq, parts, List.flatMap_cons])
  | _ => exact .inr (by simp [own, parts])

theorem own_subset_of_mem_parts {e e' : Code} (h : e' ∈ e.parts) : e'.own ⊆ e.own := by
  rcases own_eq_or e with ⟨s, label, params, body, rfl⟩ | heq
  · contradiction
  · rw [heq]
    exact fun label hlabel => List.mem_flatMap_of_mem h hlabel

mutual

theorem own_sublist (around : List Binder) (e : Code) :
    e.own.Sublist ((e.lambdas around).map (·.1.label)) := by
  cases e with
  | number | string | bool | var => exact .slnil
  | assign s x value => exact own_sublist around value
  | binary s op left right =>
    rw [own, lambdas, List.map_append]
    exact (own_sublist around left).append (own_sublist around right)
  | ifThen s condition thenBranch =>
    rw [own, lambdas, List.map_append]
    exact (own_sublist around condition).append (own_sublist around thenBranch)
  | ifElse s condition thenBranch elseBranch =>
    rw [own, lambdas, List.map_append, List.map_append]
    exact ((own_sublist around condition).append (own_sublist around thenBranch)).append
      (own_sublist around elseBranch)
  | loop s condition body =>
    rw [own, lambdas, List.map_append]
    exact (own_sublist around condition).append (own_sublist around body)
  | seq s items => exact ownAll_sublist around items
  | lambda s label params body => exact List.Sublist.cons_cons _ (List.nil_sublist _)
  | call s callee args =>
    rw [own, lambdas, List.map_append]
    exact (own_sublist around callee).append (ownAll_sublist around args)

theorem ownAll_sublist (around : List Binder) (items : List Code) :
    (ownAll items).Sublist ((lambdasAll around items).map (·.1.label)) := by
  cases items with
  | nil => exact .slnil
  | cons item items =>
    rw [ownAll, lambdasAll, List.map_append]
    exact (own_sublist around item).append (ownAll_sublist around items)

end

/-- All labels are below the next one. -/
theorem StandsIn.own_lt {codes : List Code} {next label : Nat} {e : Code} (h : e.StandsIn codes)
    (hnumbered : Numbered codes next) (hown : label ∈ e.own) : label < next := by
  obtain ⟨root, hroot, around, hwithin⟩ := h
  obtain ⟨n, hlabels, rfl⟩ := hnumbered
  have hroot' := (own_sublist around e).trans (hwithin.lambdas.1.map _)
  have hmem : label ∈ (codes.flatMap (·.lambdas [])).map (·.1.label) := by
    rw [List.map_flatMap]
    exact List.mem_flatMap_of_mem hroot (hroot'.subset hown)
  rw [hlabels] at hmem
  exact (List.mem_range'_1.mp hmem).2

/-- A tree gets labels that were not used before. -/
theorem le_of_mem_own {first label : Nat} {tree : Tree} (h : label ∈ (tree.numbered first).1.own) :
    first ≤ label := by
  obtain ⟨n, hlabels, -⟩ := labelled_numbered [] first tree
  have hmem := (own_sublist [] _).subset h
  rw [hlabels] at hmem
  exact (List.mem_range'_1.mp hmem).1

/-- No two of the expressions have a label in common. -/
def Spread (items : List Code) : Prop := items.Pairwise fun e e' => e.own.Disjoint e'.own

theorem Spread.notMem {item e : Code} {items : List Code} {label : Nat}
    (h : Spread (item :: items)) (he : e ∈ items) (hown : label ∈ e.own) : label ∉ item.own :=
  fun hitem => List.rel_of_pairwise_cons h he hitem hown

/-- Programs have each label once, and so do the parts of their expressions. -/
theorem StandsIn.spread {codes : List Code} {next : Nat} {e : Code} (h : e.StandsIn codes)
    (hnumbered : Numbered codes next) : Spread e.parts := by
  obtain ⟨root, hroot, around, hwithin⟩ := h
  rcases own_eq_or e with ⟨s, label, params, body, rfl⟩ | heq
  · exact .nil
  obtain ⟨n, hlabels, -⟩ := hnumbered
  have hcodes : ((codes.flatMap (·.lambdas [])).map (·.1.label)).Nodup := by
    rw [hlabels]
    exact List.nodup_range'
  rw [List.map_flatMap, List.nodup_flatMap] at hcodes
  have hnodup : e.own.Nodup :=
    (hcodes.1 root hroot).sublist ((own_sublist around e).trans (hwithin.lambdas.1.map _))
  rw [heq, List.nodup_flatMap] at hnodup
  exact hnodup.2

end Expr

/-- The lambda node stands in a loop that evaluates it in the scope of the loop. -/
def Looped (codes : List Code) (label : Nat) : Prop :=
  ∃ s condition body, Expr.StandsIn codes (.loop s condition body) ∧
    label ∈ Expr.own (.loop s condition body)

/-! ## Nothing is made -/

/-- The lambda node has made the closure in the scope. -/
def Closure.MadeBy (label : Nat) (scope : ScopeId) (c : Closure) : Prop :=
  c.label = label ∧ c.scope = scope

theorem Closure.same_iff {c d : Closure} : c.same d = true ↔ d.MadeBy c.label c.scope := by
  rw [same, Bool.and_eq_true, beq_iff_eq, beq_iff_eq]
  exact and_congr eq_comm eq_comm

/-- The scope is there, and no function is bound that the lambda node has made in it. -/
structure Store.Lacks (label : Nat) (scope : ScopeId) (store : Store) : Prop where
  lt_size : scope < store.scopes.size
  binds : store.BindsOnly fun c => ¬c.MadeBy label scope

/-- Nothing but the lambda node itself, evaluated in the scope, makes functions of that kind. -/
def sparing (label : Nat) (scope : ScopeId) (ctx : Context) : Discipline ctx where
  Holds p := p.machine.store.Lacks label scope ∧ (p.scope = scope → label ∉ p.code.own)
  Fits _ c := ¬c.MadeBy label scope
  Leads m m' := m.store.Lacks label scope → m'.store.Lacks label scope
  leads_refl _ := id
  leads_trans h h' := h' ∘ h
  fits_of_leads _ hc := hc
  part h hask hleads :=
    ⟨hleads h.1, fun hscope hown => h.2 hscope
      (Expr.own_subset_of_mem_parts (mem_parts_of_asks hask) hown)⟩
  enter {_ _ _ _ _ _ _ c values m₁ _ _} h _ hleads _ hvalues _ henter := by
    have hlacks := hleads h.1
    have hentered : (entered m₁.store c values).Lacks label scope := by
      refine ⟨Nat.lt_of_lt_of_le hlacks.lt_size (extends_entered 0 m₁.store c values).size_le, ?_⟩
      exact hlacks.binds.entered hvalues
    rw [enterScope_apply] at henter
    cases henter
    -- the scope of the body is new
    exact ⟨⟨hentered, fun hscope => absurd hscope (Nat.ne_of_gt hlacks.lt_size)⟩,
      fun _ hbody _ => hbody hentered⟩
  read h hget := h.1.binds.get hget
  assign _ _ _ hv _ hlacks := ⟨Nat.lt_of_lt_of_eq hlacks.lt_size size_define.symm,
    hlacks.binds.define hv⟩
  lambda h hmade := h.2 hmade.2 (List.mem_singleton.mpr hmade.1.symm)
  printLine _ := id
  writeFile _ _ := id

section
variable {ctx : Context} {label : Nat} {scope : ScopeId} {fuel : Nat} {m m₁ m₂ : Machine}
  {e e₁ e₂ : Code} {v : Value}

/-- Evaluating an expression that has not got the lambda node. -/
theorem Store.Lacks.eval (hm : m.store.Lacks label scope) (hown : label ∉ e.own)
    (h : eval ctx fuel e scope m = .done v m₁) : m₁.store.Lacks label scope := by
  have hstart : (sparing label scope ctx).Holds ⟨[], fuel, e, scope, m⟩ := ⟨hm, fun _ => hown⟩
  exact (((sparing label scope ctx).keeps hstart).of_done h).1 hm

/-- The items before the one that has got the lambda node. -/
theorem lacks_of_asksItem {items : List Code} (h : AsksItem (eval ctx fuel) scope items m e m₁)
    (hspread : Expr.Spread items) (hown : label ∈ e.own) (hm : m.store.Lacks label scope) :
    m₁.store.Lacks label scope := by
  induction h with
  | head => exact hm
  | tail hitem h ih =>
    exact ih hspread.of_cons hown (hm.eval (hspread.notMem (mem_of_asksItem h) hown) hitem)

theorem lacks_of_itemsInTurn {items : List Code}
    (h : ItemsInTurn (eval ctx fuel) scope items m e₁ m₁ e₂ m₂) (hspread : Expr.Spread items)
    (hown : label ∈ e₂.own) (hm : m.store.Lacks label scope) :
    m₁.store.Lacks label scope ∧ label ∉ e₁.own := by
  induction h with
  | head hitem h => exact ⟨hm, hspread.notMem (mem_of_asksItem h) hown⟩
  | tail hitem h ih =>
    have hbefore := hspread.notMem (mem_of_asksItem h.asks.2) hown
    exact ih hspread.of_cons hown (hm.eval hbefore hitem)

/-- When a part is evaluated that has got the lambda node, this has made no function yet in the
scope, except for a loop. -/
theorem lacks_of_asks (h : Asks (eval ctx fuel) scope fuel m e e₁ m₁)
    (hloop : ∀ s condition body, e ≠ .loop s condition body) (hspread : Expr.Spread e.parts)
    (hown : label ∈ e₁.own) (hm : m.store.Lacks label scope) : m₁.store.Lacks label scope := by
  cases h with
  | value | left | ifOnly | choice | callee => exact hm
  | right hpart | thenOnly hpart | thenBranch hpart =>
    exact hm.eval (hspread.notMem List.mem_cons_self hown) hpart
  | elseBranch hpart =>
    exact hm.eval (hspread.notMem (List.mem_cons_of_mem _ List.mem_cons_self) hown) hpart
  | round => exact absurd rfl (hloop _ _ _)
  | item h => exact lacks_of_asksItem h hspread hown hm
  | arg hcallee h =>
    have hm' := hm.eval (hspread.notMem (mem_of_asksItem h) hown) hcallee
    exact lacks_of_asksItem h hspread.of_cons hown hm'

/-- Of two parts in turn of which the second one has got the lambda node, the first one makes no
function of that kind, nor has one been made before, except for a loop. -/
theorem lacks_of_partsInTurn (h : PartsInTurn (eval ctx fuel) scope fuel m e e₁ m₁ e₂ m₂)
    (hloop : ∀ s condition body, e ≠ .loop s condition body) (hspread : Expr.Spread e.parts)
    (hown : label ∈ e₂.own) (hm : m.store.Lacks label scope) :
    m₁.store.Lacks label scope ∧ label ∉ e₁.own := by
  cases h with
  | operands | thenOnly | thenBranch => exact ⟨hm, hspread.notMem List.mem_cons_self hown⟩
  | elseBranch =>
    exact ⟨hm, hspread.notMem (List.mem_cons_of_mem _ List.mem_cons_self) hown⟩
  | rounds => exact absurd rfl (hloop _ _ _)
  | items h => exact lacks_of_itemsInTurn h hspread hown hm
  | calleeArg _ h => exact ⟨hm, hspread.notMem (mem_of_asksItem h) hown⟩
  | args hcallee h =>
    have hm' := hm.eval (hspread.notMem (mem_of_asksItem h.asks.2) hown) hcallee
    exact lacks_of_itemsInTurn h hspread.of_cons hown hm'

end

/-! ## Whole runs -/

/-- A run begins, and all closures that are bound then are among the `old` ones. -/
structure Opening (codes : List Code) (old : Closure → Prop) (start : Moment) : Prop where
  numbered : ∃ next, Numbered codes next
  sourced : start.Sourced codes
  present : Region.present.Holds start
  binds : start.machine.store.BindsOnly old
  lt_size : ∀ c, old c → c.scope < start.machine.store.scopes.size

/-- The run evaluates a lambda node in a scope in which this has made a function before. -/
def Repeats (old : Closure → Prop) (start : Moment) (label : Nat) (scope : ScopeId) : Prop :=
  scope = start.scope ∧ label ∈ start.code.own ∧ ∃ c, old c ∧ c.MadeBy label scope

variable {ctx : Context} {codes : List Code} {old : Closure → Prop} {start p : Moment} {label : Nat}

/-- When an expression is evaluated, its lambda nodes have not yet made functions in the scope,
except for those in loops and for those that the run evaluates again. -/
theorem lacks_of_reaches (hopening : Opening codes old start) (h : Reaches ctx start p)
    (hown : label ∈ p.code.own) (hloop : ¬Looped codes label)
    (hrepeats : ¬Repeats old start label p.scope) : p.machine.store.Lacks label p.scope := by
  induction h with
  | refl =>
    exact ⟨hopening.present.mem, hopening.binds.imp fun c hc hmade =>
      hrepeats ⟨rfl, hown, c, hc, hmade⟩⟩
  | tail hreaches hcalls ih =>
    cases hcalls with
    | part hask =>
      -- the parts before this one have other lambda nodes
      have hstands := ((sourced codes ctx).holds hopening.sourced hreaches).standsIn
      have hpart := Expr.own_subset_of_mem_parts (mem_parts_of_asks hask) hown
      obtain ⟨next, hnumbered⟩ := hopening.numbered
      refine lacks_of_asks hask ?_ (hstands.spread hnumbered) hown (ih hpart hrepeats)
      rintro s condition body rfl
      exact hloop ⟨s, condition, body, hstands, hpart⟩
    | body henter =>
      -- the scope of the body was made after all functions that are bound
      have hpresent := (Region.present.discipline ctx).holds hopening.present hreaches
      obtain ⟨values, m₁, m₂, hleads, -, hvalues, hnew, rfl⟩ :=
        (Region.present.discipline ctx).fits_of_enters hpresent henter
      have hwhole := Region.encloses_present_iff.mp (hleads.1.encloses hpresent.encloses)
      refine ⟨(le_of_enters henter).2, ?_⟩
      rw [enterScope_apply] at hnew
      cases hnew
      refine BindsOnly.imp (hwhole.bindsOnly.entered hvalues) ?_
      rintro c hlt ⟨-, hscope⟩
      exact Nat.ne_of_lt hlt hscope

end LambdaScript
