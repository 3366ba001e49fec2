import Mathlib.Data.List.Forall2
import LambdaScript.Proofs.Enclosure
import LambdaScript.Proofs.Scopes
/-!
# Scopes that follow the text

A scope is `Shaped` by the lambda nodes around an expression if its chain has one scope for each of
them, which binds exactly the parameters, and then the global scope. This decides which scope a name
belongs to (`Shaped.owner`). A store that `Extends` another one keeps the shape of all its scopes;
calling a closure adds a scope that is shaped by one more lambda node.
-/

namespace LambdaScript

open Store

/-- From `scope` outwards there is a scope for each of the lambda nodes, the innermost one first,
which binds exactly its parameters, and then the root `global`. -/
inductive Shaped (global : ScopeId) (store : Store) : ScopeId → List Binder → Prop
  | global (hroot : store.parent? global = none) (hlt : global < store.scopes.size) :
      Shaped global store global []
  | inner {scope outer b around} (hparent : store.parent? scope = some outer)
      (hbinds : ∀ x, store.Binds scope x ↔ x ∈ b.params)
      (houter : Shaped global store outer around) :
      Shaped global store scope (b :: around)

/-- A later store: scopes are never dropped nor moved, and except for `global` they bind the same
names as before. -/
structure Extends (global : ScopeId) (before after : Store) : Prop where
  size_le : before.scopes.size ≤ after.scopes.size
  parent?_eq : ∀ s, s < before.scopes.size → after.parent? s = before.parent? s
  binds_iff : ∀ s, s < before.scopes.size → s ≠ global → ∀ x, after.Binds s x ↔ before.Binds s x

/-- The scope that a name belongs to: that of the innermost lambda node around which has it as a
parameter, and the last scope of the chain if there is none. -/
def owner? (store : Store) (scope : ScopeId) (around : List Binder) (x : Name) : Option ScopeId :=
  (store.chain scope)[around.findIdx fun b => b.params.contains x]?

variable {global scope outer found : ScopeId} {store store' store'' : Store}
  {around : List Binder} {x : Name} {value : Value}

/-! ## Shapes -/

namespace Shaped

theorem root (h : Shaped global store scope around) : store.parent? global = none := by
  induction h with
  | global hroot hlt => exact hroot
  | inner _ _ _ ih => exact ih

theorem global_lt_size (h : Shaped global store scope around) : global < store.scopes.size := by
  induction h with
  | global hroot hlt => exact hlt
  | inner _ _ _ ih => exact ih

theorem lt_size (h : Shaped global store scope around) : scope < store.scopes.size := by
  cases h with
  | global hroot hlt => exact hlt
  | inner hparent _ _ => exact lt_size_of_parent? hparent

theorem length_chain (h : Shaped global store scope around) :
    (store.chain scope).length = around.length + 1 := by
  induction h with
  | global hroot _ => rw [chain_of_root hroot, List.length_singleton, List.length_nil]
  | inner hparent _ _ ih => rw [chain_of_parent hparent, List.length_cons, ih, List.length_cons]

theorem getLast?_chain (h : Shaped global store scope around) :
    (store.chain scope).getLast? = some global := by
  induction h with
  | global hroot _ => rw [chain_of_root hroot, List.getLast?_singleton]
  | inner hparent _ houter ih =>
    rw [chain_of_parent hparent, List.getLast?_cons, ih, Option.getD_some]

/-- The scope of each lambda node binds exactly its parameters. -/
theorem binds_chain (h : Shaped global store scope around) {i : Nat} {b : Binder} {s : ScopeId}
    (hb : around[i]? = some b) (hs : (store.chain scope)[i]? = some s) (x : Name) :
    store.Binds s x ↔ x ∈ b.params := by
  induction h generalizing i with
  | global => contradiction
  | inner hparent hbinds _ ih =>
    rw [chain_of_parent hparent] at hs
    cases i with
    | zero =>
      cases hb
      cases hs
      exact hbinds x
    | succ i => exact ih hb hs

/-- Looking up a name comes to the scope that it belongs to, if that binds it. Only the global scope
may not. -/
theorem owner (h : Shaped global store scope around) (x : Name) :
    ∃ found, owner? store scope around x = some found ∧
      store.lookup scope x = (if store.Binds found x then some found else none) ∧
      (¬store.Binds found x → found = global ∧ ∀ b ∈ around, x ∉ b.params) := by
  induction h with
  | global hroot hlt =>
    refine ⟨global, ?_, ?_, fun _ => ⟨rfl, List.forall_mem_nil _⟩⟩
    · rw [owner?, chain_of_root hroot, List.findIdx_nil]
      rfl
    · split
      · next hbinds => exact lookup_of_binds hbinds
      · next hbinds => exact lookup_of_root hbinds hroot
  | @inner scope outer b around hparent hbinds houter ih =>
    -- the innermost lambda node takes the name, or leaves it to those around
    by_cases hx : x ∈ b.params
    · have hscope := (hbinds x).mpr hx
      refine ⟨scope, ?_, ?_, fun hnot => absurd hscope hnot⟩
      · rw [owner?, chain_of_parent hparent, List.findIdx_cons, List.contains_iff_mem.mpr hx]
        rfl
      · rw [if_pos hscope, lookup_of_binds hscope]
    · obtain ⟨found, hfound, hlookup, hnone⟩ := ih
      refine ⟨found, ?_, ?_, fun hnot => ?_⟩
      · have hcontains : b.params.contains x = false := by simpa using hx
        rw [owner?, chain_of_parent hparent, List.findIdx_cons, hcontains]
        exact hfound
      · rw [lookup_of_parent (fun hscope => hx ((hbinds x).mp hscope)) hparent, hlookup]
      · obtain ⟨hglobal, houtside⟩ := hnone hnot
        exact ⟨hglobal, List.forall_mem_cons.mpr ⟨hx, houtside⟩⟩

/-- Only outside of all lambda nodes there is no scope around. -/
theorem isRoot_iff (h : Shaped global store scope around) :
    store.isRoot scope = true ↔ around = [] := by
  rw [isRoot, Option.isNone_iff_eq_none]
  cases h with
  | global hroot _ => exact ⟨fun _ => rfl, fun _ => hroot⟩
  | inner hparent _ _ =>
    rw [hparent]
    constructor <;> intro hnil <;> contradiction

end Shaped

/-! ## Later stores -/

namespace Extends

theorem refl (global : ScopeId) (store : Store) : Extends global store store :=
  ⟨Nat.le_refl _, fun _ _ => rfl, fun _ _ _ _ => Iff.rfl⟩

theorem trans (h : Extends global store store') (h' : Extends global store' store'') :
    Extends global store store'' where
  size_le := Nat.le_trans h.size_le h'.size_le
  parent?_eq s hs := (h'.parent?_eq s (Nat.lt_of_lt_of_le hs h.size_le)).trans (h.parent?_eq s hs)
  binds_iff s hs hglobal x :=
    (h'.binds_iff s (Nat.lt_of_lt_of_le hs h.size_le) hglobal x).trans (h.binds_iff s hs hglobal x)

/-- Binding a name again where it is bound already, or in the global scope. -/
theorem define (h : store.Binds found x ∨ found = global) :
    Extends global store (store.define found x value) where
  size_le := Nat.le_of_eq size_define.symm
  parent?_eq s _ := parent?_define s
  binds_iff s _ hglobal y := by
    rw [binds_define]
    refine ⟨fun hbinds => hbinds.elim id ?_, .inl⟩
    rintro ⟨rfl, rfl, -⟩
    exact h.resolve_right hglobal

end Extends

namespace Shaped

/-- Later stores keep the shape of a scope. -/
theorem mono (h : Shaped global store scope around) (hext : Extends global store store') :
    Shaped global store' scope around := by
  induction h with
  | global hroot hlt =>
    exact .global ((hext.parent?_eq _ hlt).trans hroot) (Nat.lt_of_lt_of_le hlt hext.size_le)
  | @inner scope outer b around hparent hbinds houter ih =>
    have hlt := lt_size_of_parent? hparent
    -- only the global scope may gain names, and this one has a scope around it
    have hne : scope ≠ global := by
      rintro rfl
      rw [houter.root] at hparent
      contradiction
    refine .inner ((hext.parent?_eq _ hlt).trans hparent) (fun x => ?_) ih
    exact (hext.binds_iff _ hlt hne x).trans (hbinds x)

theorem chain_eq (h : Shaped global store scope around) (hext : Extends global store store') :
    store'.chain scope = store.chain scope := by
  induction h with
  | global hroot hlt =>
    rw [chain_of_root hroot, chain_of_root ((hext.parent?_eq _ hlt).trans hroot)]
  | inner hparent _ _ ih =>
    have hlt := lt_size_of_parent? hparent
    rw [chain_of_parent hparent, chain_of_parent ((hext.parent?_eq _ hlt).trans hparent), ih]

theorem owner?_eq (h : Shaped global store scope around) (hext : Extends global store store')
    (x : Name) : owner? store' scope around x = owner? store scope around x := by
  rw [owner?, owner?, h.chain_eq hext]

end Shaped

/-! ## Arguments -/

section
variable {R : Value → Value → Prop} {args args' : List Value} (h : List.Forall₂ R args args')
include h

/-- Arguments correspond even where they are missing, if what stands for them does. -/
theorem forall₂_headD {v v' : Value} (hv : R v v') : R (args.headD v) (args'.headD v') := by
  cases h with
  | nil => exact hv
  | cons hfirst _ => exact hfirst

theorem forall₂_tail : List.Forall₂ R args.tail args'.tail := by
  cases h with
  | nil => exact .nil
  | cons _ hrest => exact hrest

end

/-! ## Calls -/

section
variable {params : List Name} {args : List Value}

theorem size_bindParams (store : Store) (scope : ScopeId) (params : List Name)
    (args : List Value) : (bindParams store scope params args).scopes.size = store.scopes.size := by
  fun_induction bindParams store scope params args with
  | case1 => rfl
  | case2 store _ _ ih => rw [ih, size_define]
  | case3 store _ _ _ _ ih => rw [ih, size_define]

theorem parent?_bindParams (store : Store) (scope : ScopeId) (params : List Name)
    (args : List Value) (found : ScopeId) :
    (bindParams store scope params args).parent? found = store.parent? found := by
  fun_induction bindParams store scope params args with
  | case1 => rfl
  | case2 store _ _ ih => rw [ih, parent?_define]
  | case3 store _ _ _ _ ih => rw [ih, parent?_define]

/-- Binding parameters makes exactly the parameters visible, and only in their scope. -/
theorem binds_bindParams (hlt : scope < store.scopes.size) (found : ScopeId) (y : Name) :
    (bindParams store scope params args).Binds found y ↔
      store.Binds found y ∨ (scope = found ∧ y ∈ params) := by
  fun_induction bindParams store scope params args with
  | case1 => simp
  | case2 store param params ih =>
    rw [ih (by rwa [size_define]), binds_define, List.mem_cons]
    grind
  | case3 store param params arg args ih =>
    rw [ih (by rwa [size_define]), binds_define, List.mem_cons]
    grind

/-- Where a binding after binding parameters comes from. -/
theorem eq_of_binding?_bindParams {found : ScopeId} {y : Name} {v : Value}
    (h : (bindParams store scope params args).binding? found y = some v) :
    store.binding? found y = some v ∨ v = .bool false ∨ v ∈ args := by
  fun_induction bindParams store scope params args with
  | case1 => exact .inl h
  | case2 store param params ih =>
    rcases ih h with h | h | h
    · rw [binding?_define] at h
      split at h
      · exact .inr (.inl (Option.some.inj h).symm)
      · exact .inl h
    · exact .inr (.inl h)
    · contradiction
  | case3 store param params arg args ih =>
    rcases ih h with h | h | h
    · rw [binding?_define] at h
      split at h
      · cases h
        exact .inr (.inr List.mem_cons_self)
      · exact .inl h
    · exact .inr (.inl h)
    · exact .inr (.inr (List.mem_cons_of_mem _ h))

end

/-- The store in which the body of a closure begins. -/
def entered (store : Store) (c : Closure) (args : List Value) : Store :=
  bindParams (store.extend c.scope).2 (store.extend c.scope).1 c.params args

theorem enterScope_apply (c : Closure) (args : List Value) (m : Machine) :
    enterScope c args m =
      .done (m.store.extend c.scope).1 { m with store := entered m.store c args } := rfl

/-- Entering a body makes one scope. -/
theorem size_entered (store : Store) (c : Closure) (args : List Value) :
    (entered store c args).scopes.size = store.scopes.size + 1 := by
  rw [entered, size_bindParams, size_extend]

theorem extends_entered (global : ScopeId) (store : Store) (c : Closure) (args : List Value) :
    Extends global store (entered store c args) where
  size_le := by
    rw [size_entered]
    exact Nat.le_succ _
  parent?_eq s hs := by rw [entered, parent?_bindParams, parent?_extend_old hs]
  binds_iff s hs _ x := by
    rw [entered, binds_bindParams (lt_size_extend store c.scope)]
    -- the new scope comes after all there are
    have hne : (store.extend c.scope).1 ≠ s := Nat.ne_of_gt hs
    simp only [hne, false_and, or_false, Binds, binding?_extend]

/-- The scope of a body is in the scope of the closure. -/
theorem parent?_entered {store : Store} {c : Closure} (args : List Value)
    (h : c.scope < store.scopes.size) :
    (entered store c args).parent? (store.extend c.scope).1 = some c.scope := by
  rw [entered, parent?_bindParams, parent?_extend_new h]

/-- The scope of a body binds the parameters. -/
theorem binds_entered (store : Store) (c : Closure) (args : List Value) (x : Name) :
    (entered store c args).Binds (store.extend c.scope).1 x ↔ x ∈ c.params := by
  have hnone : ¬(store.extend c.scope).2.Binds (store.extend c.scope).1 x := by
    rw [Binds, binding?_extend]
    exact not_binds_of_size_le (Nat.le_refl _)
  rw [entered, binds_bindParams (lt_size_extend store c.scope)]
  simp only [hnone, false_or, true_and]

/-- The scope of a body is shaped by the lambda node of the closure and those around it. -/
theorem shaped_entered {c : Closure} {b : Binder} (args : List Value)
    (h : Shaped global store c.scope around) (hparams : b.params = c.params) :
    Shaped global (entered store c args) (store.extend c.scope).1 (b :: around) := by
  refine .inner (parent?_entered args h.lt_size) (fun x => ?_)
    (h.mono (extends_entered global store c args))
  rw [binds_entered, hparams]

end LambdaScript
