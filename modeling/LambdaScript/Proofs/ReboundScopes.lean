import Mathlib.Data.Option.Basic
import LambdaScript.Proofs.Nesting
import LambdaScript.Proofs.Rebinding
import LambdaScript.Proofs.Renaming
/-!
# Scopes that bind other names

A `World` notes for each scope under which lambda nodes it was made, and with which names in place
of their parameters. Two stores correspond in a world if each scope of the second one binds the
other names to values that correspond (`Store.Rebound`). A name and what it is called instead are
then found in the same scope (`Store.Rebound.lookup`). Scopes are made and never dropped, so worlds
only grow, and what corresponds in one world does so in each later one.
-/

namespace LambdaScript

/-- For each scope the lambda nodes around it, the innermost one first. -/
abbrev World := List (List Rebinding)

namespace World

variable {w w' : World} {s : ScopeId} {b : Rebinding} {around : List Rebinding}

/-- What the names that a scope binds are called instead. -/
def perm (w : World) (s : ScopeId) : Equiv.Perm Name :=
  match w[s]? with
  | some (b :: _) => b.perm
  | _ => .refl Name

theorem perm_cons (h : w[s]? = some (b :: around)) : w.perm s = b.perm := by
  rw [perm, h]

theorem perm_nil (h : w[s]? = some []) : w.perm s = .refl Name := by
  rw [perm, h]

/-- Later worlds note the same of the scopes that there were. -/
theorem getElem?_of_prefix (h : w <+: w') (hs : w[s]? = some around) : w'[s]? = some around := by
  obtain ⟨more, rfl⟩ := h
  obtain ⟨hlt, -⟩ := List.getElem?_eq_some_iff.mp hs
  rw [List.getElem?_append_left hlt, hs]

theorem perm_append (hs : s < w.length) (more : World) : (w ++ more).perm s = w.perm s := by
  rw [perm, List.getElem?_append_left hs]
  rfl

end World

variable {Shown : List Name → List Name → Prop} {w w' : World}

/-! ## Values -/

/-- Values that correspond in a world: the same one, or closures made in one scope by lambda nodes
that are the same but for the names of parameters. -/
inductive Value.Rebound (Shown : List Name → List Name → Prop) (w : World) :
    Value → Value → Prop where
  | number (x : Float) : Rebound Shown w (.number x) (.number x)
  | string (s : String) : Rebound Shown w (.string s) (.string s)
  | bool (b : Bool) : Rebound Shown w (.bool b) (.bool b)
  | builtin (b : Builtin) : Rebound Shown w (.function (.builtin b)) (.function (.builtin b))
  | closure {label : Nat} {scope : ScopeId} {around : List Rebinding} {body body' : Code}
      (b : Rebinding) (hscope : w[scope]? = some around)
      (hshown : Shown b.params (b.params.map b.perm))
      (hbody : Expr.Rebound Shown (b :: around) body body') :
      Rebound Shown w (.function (.closure ⟨label, b.params, body, scope⟩))
        (.function (.closure ⟨label, b.params.map b.perm, body', scope⟩))

namespace Value.Rebound

variable {v v' u u' : Value}

theorem mono (hw : w <+: w') (h : v.Rebound Shown w v') : v.Rebound Shown w' v' := by
  cases h with
  | closure b hscope hshown hbody =>
    exact .closure b (World.getElem?_of_prefix hw hscope) hshown hbody
  | number | string | bool | builtin => constructor

theorem isFalse_eq (h : v.Rebound Shown w v') : v'.isFalse = v.isFalse := by
  cases h <;> rfl

theorem refl_of_plain (h : ∀ f, v ≠ .function f) : v.Rebound Shown w v := by
  cases v with
  | function f => exact absurd rfl (h f)
  | number | string | bool => constructor

/-- A function without its parameters and its body, which operators do not see. -/
private def core : Callable → Callable
  | .closure c => .closure ⟨c.label, [], default, c.scope⟩
  | .builtin b => .builtin b

private theorem same_core (f g : Callable) : (core f).same (core g) = f.same g := by
  cases f <;> cases g <;> rfl

private theorem onFunctions_core (h : v.Rebound Shown w v') :
    v'.onFunctions core = v.onFunctions core := by
  cases h <;> rfl

private theorem eq_of_onFunctions_core (h : ∀ f, v ≠ .function f)
    (heq : v'.onFunctions core = v.onFunctions core) : v' = v := by
  cases v with
  | function f => exact absurd rfl (h f)
  | number | string | bool => cases v' <;> first | exact heq | cases heq

/-- Operators other than `&&` and `||` have no function as their value. -/
theorem not_function_of_binary {op : BinaryOp} (hop : op.isShortCircuit = false) {f : Callable} :
    Value.binary op v u ≠ .ok (.function f) := by
  intro h
  cases op with
  | add => cases v <;> cases u <;> cases h
  | sub | mul =>
    simp only [Value.binary] at h
    cases hn : numbers _ v u <;> rw [hn] at h <;> cases h
  | div | mod =>
    simp only [Value.binary] at h
    cases hn : dividends _ v u <;> rw [hn] at h <;> cases h
  | lt | le | gt | ge =>
    simp only [Value.binary, order] at h
    cases hc : compare? v u <;> rw [hc] at h <;> cases h
  | eq | ne => cases h
  | and | or => contradiction

/-- The value of `&&` and `||` is that of one operand, and the left one decides which. -/
theorem binary_of_shortCircuit {op : BinaryOp} (hop : op.isShortCircuit = true)
    (hv : v.Rebound Shown w v') (hu : u.Rebound Shown w u') :
    ∃ a a', Value.binary op v u = .ok a ∧ Value.binary op v' u' = .ok a' ∧
      a.Rebound Shown w a' := by
  cases op with
  | and =>
    refine ⟨_, _, rfl, rfl, ?_⟩
    rw [hv.isFalse_eq]
    split
    · exact hv
    · exact hu
  | or =>
    refine ⟨_, _, rfl, rfl, ?_⟩
    rw [hv.isFalse_eq]
    split
    · exact hu
    · exact hv
  | _ => contradiction

/-- The other operators do the same, as they do not see the parameters and the body of a function,
and have none as their value. -/
theorem binary_eq {op : BinaryOp} (hop : op.isShortCircuit = false)
    (hv : v.Rebound Shown w v') (hu : u.Rebound Shown w u') :
    Value.binary op v' u' = Value.binary op v u := by
  have hcore : (Value.binary op v' u').map (onFunctions core) =
      (Value.binary op v u).map (onFunctions core) := by
    rw [← binary_onFunctions same_core, ← binary_onFunctions same_core, onFunctions_core hv,
      onFunctions_core hu]
  cases h : Value.binary op v u with
  | error fault =>
    cases h' : Value.binary op v' u' <;> rw [h, h'] at hcore <;> cases hcore
    rfl
  | ok a =>
    have hplain : ∀ f, a ≠ .function f := by
      rintro f rfl
      exact not_function_of_binary hop h
    cases h' : Value.binary op v' u' with
    | error fault =>
      rw [h, h'] at hcore
      cases hcore
    | ok a' =>
      rw [h, h'] at hcore
      rw [eq_of_onFunctions_core hplain (Except.ok.inj hcore)]

/-- Operators see no difference. -/
theorem binary (op : BinaryOp) (hv : v.Rebound Shown w v') (hu : u.Rebound Shown w u') :
    (∃ fault, Value.binary op v u = .error fault ∧ Value.binary op v' u' = .error fault) ∨
      ∃ a a', Value.binary op v u = .ok a ∧ Value.binary op v' u' = .ok a' ∧
        a.Rebound Shown w a' := by
  cases hop : op.isShortCircuit with
  | true => exact .inr (binary_of_shortCircuit hop hv hu)
  | false =>
    rw [binary_eq hop hv hu]
    cases h : Value.binary op v u with
    | error fault => exact .inl ⟨fault, rfl, rfl⟩
    | ok a =>
      have hplain : ∀ f, a ≠ .function f := by
        rintro f rfl
        exact not_function_of_binary hop h
      exact .inr ⟨a, a, rfl, rfl, refl_of_plain hplain⟩

end Value.Rebound

/-! ## Stores -/

/-- What is around a scope: nothing around a root, and around any other scope the lambda node whose
parameters it binds, and what is around its parent. -/
inductive Nested (store : Store) (w : World) (s : ScopeId) : List Rebinding → Prop where
  | root (hparent : store.parent? s = none) : Nested store w s []
  | inner {b : Rebinding} {around : List Rebinding} {outer : ScopeId}
      (hparent : store.parent? s = some outer) (houter : w[outer]? = some around)
      (hbinds : ∀ z, store.Binds s z ↔ z ∈ b.params) : Nested store w s (b :: around)

/-- What one scope binds a name to, the same scope of the other store binds the other name to. -/
structure Store.BindsAlike (Shown : List Name → List Name → Prop) (w : World)
    (store store' : Store) : Prop where
  size : store'.scopes.size = store.scopes.size
  binding : ∀ s z,
    Option.Rel (Value.Rebound Shown w) (store.binding? s z) (store'.binding? s (w.perm s z))

/-- Stores that correspond in a world. -/
structure Store.Rebound (Shown : List Name → List Name → Prop) (w : World)
    (store store' : Store) : Prop extends Store.BindsAlike Shown w store store' where
  length : store.scopes.size = w.length
  parent : ∀ s, store'.parent? s = store.parent? s
  nested : ∀ s around, w[s]? = some around → Nested store w s around

namespace Store

variable {store store' : Store} {v v' : Value} {s : ScopeId} {z z' : Name}
  {around : List Rebinding}

namespace BindsAlike

theorem binds_iff (h : BindsAlike Shown w store store') (s : ScopeId) (z : Name) :
    store'.Binds s (w.perm s z) ↔ store.Binds s z := by
  have hrel := h.binding s z
  rw [Binds, Binds]
  generalize store.binding? s z = found at hrel ⊢
  generalize store'.binding? s (w.perm s z) = found' at hrel ⊢
  cases hrel with
  | some => exact Iff.rfl
  | none => exact Iff.rfl

theorem define (h : BindsAlike Shown w store store') (hv : v.Rebound Shown w v') (s : ScopeId)
    (z : Name) :
    BindsAlike Shown w (store.define s z v) (store'.define s (w.perm s z) v') where
  size := by rw [size_define, size_define, h.size]
  binding found u := by
    rw [binding?_define, binding?_define, h.size]
    by_cases hfound : s = found
    · subst hfound
      simp only [EmbeddingLike.apply_eq_iff_eq]
      split
      · exact .some hv
      · exact h.binding s u
    · simp only [hfound, false_and, if_false]
      exact h.binding found u

theorem bindParams (h : BindsAlike Shown w store store') (s : ScopeId) (params : List Name)
    {args args' : List Value} (hargs : List.Forall₂ (Value.Rebound Shown w) args args') :
    BindsAlike Shown w (bindParams store s params args)
      (LambdaScript.bindParams store' s (params.map (w.perm s)) args') := by
  induction params generalizing store store' args args' with
  | nil => exact h
  | cons param params ih =>
    cases hargs with
    | nil => exact ih (h.define (.bool false) s param) .nil
    | cons hv hargs => exact ih (h.define hv s param) hargs

end BindsAlike

namespace Rebound

variable (hs : Store.Rebound Shown w store store')
include hs

/-- A name and what it is called instead are found in the same scope, and that is what the scope
calls it; or both are found nowhere, and then they are one name. -/
theorem lookup (hscope : w[s]? = some around) (h : Means around z z') :
    store'.lookup s z' = store.lookup s z ∧
      (∀ found, store.lookup s z = some found → w.perm found z = z' ∧ store.Binds found z) ∧
      (store.lookup s z = none → z' = z) := by
  induction h generalizing s with
  | @free z =>
    have hiff := hs.binds_iff s z
    rw [World.perm_nil hscope, Equiv.refl_apply] at hiff
    cases hs.nested s _ hscope with
    | root hparent =>
      by_cases hbinds : store.Binds s z
      · rw [lookup_of_binds hbinds, lookup_of_binds (hiff.mpr hbinds)]
        refine ⟨rfl, fun found hfound => ?_, fun _ => rfl⟩
        cases hfound
        exact ⟨by rw [World.perm_nil hscope, Equiv.refl_apply], hbinds⟩
      · rw [lookup_of_root hbinds hparent,
          lookup_of_root (fun h => hbinds (hiff.mp h)) ((hs.parent s).trans hparent)]
        exact ⟨rfl, fun found hfound => (nomatch hfound), fun _ => rfl⟩
  | @bound b around z hmem =>
    have hiff := hs.binds_iff s z
    rw [World.perm_cons hscope] at hiff
    cases hs.nested s _ hscope with
    | inner hparent houter hbinds =>
      have hhere := (hbinds z).mpr hmem
      rw [lookup_of_binds hhere, lookup_of_binds (hiff.mpr hhere)]
      refine ⟨rfl, fun found hfound => ?_, fun hnone => nomatch hnone⟩
      cases hfound
      exact ⟨by rw [World.perm_cons hscope], hhere⟩
  | @outer b around z z' hmem hmem' _ ih =>
    cases hs.nested s _ hscope with
    | inner hparent houter hbinds =>
      -- neither name is bound here, so both are looked up further out
      have hnot : ¬store.Binds s z := fun h => hmem ((hbinds z).mp h)
      have hnot' : ¬store'.Binds s z' := by
        intro h
        have hiff := hs.binds_iff s (b.perm.symm z')
        rw [World.perm_cons hscope, Equiv.apply_symm_apply] at hiff
        have hback := (hbinds _).mp (hiff.mp h)
        exact hmem' (List.mem_map.mpr ⟨_, hback, b.perm.apply_symm_apply z'⟩)
      rw [lookup_of_parent hnot hparent, lookup_of_parent hnot' ((hs.parent s).trans hparent)]
      exact ih houter

theorem get (hscope : w[s]? = some around) (h : Means around z z') :
    Option.Rel (Value.Rebound Shown w) (store.get s z) (store'.get s z') ∧
      (store.get s z = none → z' = z) := by
  obtain ⟨hsame, hfound, hnone⟩ := hs.lookup hscope h
  rw [get_eq_lookup, get_eq_lookup, hsame]
  cases hlookup : store.lookup s z with
  | none => exact ⟨.none, fun _ => hnone hlookup⟩
  | some found =>
    obtain ⟨rfl, hbinds⟩ := hfound found hlookup
    refine ⟨hs.binding found z, fun hget => ?_⟩
    rw [Binds, show store.binding? found z = none from hget] at hbinds
    contradiction

theorem isRoot_eq (s : ScopeId) : store'.isRoot s = store.isRoot s := by
  rw [isRoot, isRoot, hs.parent]

/-- Where a name is set, the scope calls it what it is called instead; it is bound there already, or
the scope is a root. A name that can be set nowhere is called what it is. -/
theorem target? (hscope : w[s]? = some around) (h : Means around z z') :
    store'.target? s z' = store.target? s z ∧
      (∀ found, store.target? s z = some found →
        w.perm found z = z' ∧ (store.Binds found z ∨ store.parent? found = none)) ∧
      (store.target? s z = none → z' = z) := by
  obtain ⟨hsame, hfound, hnone⟩ := hs.lookup hscope h
  rw [Store.target?, Store.target?, hsame, hs.isRoot_eq]
  cases hlookup : store.lookup s z with
  | some found =>
    obtain ⟨hperm, hbinds⟩ := hfound found hlookup
    refine ⟨rfl, fun _ htarget => ?_, fun htarget => nomatch htarget⟩
    cases htarget
    exact ⟨hperm, .inl hbinds⟩
  | none =>
    -- a name that is bound nowhere is no parameter, and so it is called what it is
    obtain rfl := hnone hlookup
    refine ⟨rfl, fun found htarget => ?_, fun _ => rfl⟩
    simp only [Option.ite_none_right_eq_some, Option.some.injEq] at htarget
    obtain ⟨hroot, rfl⟩ := htarget
    have hparent : store.parent? s = none := Option.isNone_iff_eq_none.mp hroot
    refine ⟨?_, .inr hparent⟩
    cases hs.nested s _ hscope with
    | root => rw [World.perm_nil hscope, Equiv.refl_apply]
    | inner hinner =>
      rw [hparent] at hinner
      contradiction

/-- Setting a name that is bound already, or one in a root. -/
theorem define (hv : v.Rebound Shown w v') (hbound : store.Binds s z ∨ store.parent? s = none) :
    Store.Rebound Shown w (store.define s z v) (store'.define s (w.perm s z) v') where
  toBindsAlike := hs.toBindsAlike.define hv s z
  length := size_define.trans hs.length
  parent found := by rw [parent?_define, parent?_define, hs.parent]
  nested found around hfound := by
    cases hs.nested found around hfound with
    | root hparent => exact .root ((parent?_define found).trans hparent)
    | inner hparent houter hbinds =>
      refine .inner ((parent?_define found).trans hparent) houter fun u => ?_
      rw [binds_define, ← hbinds u]
      refine ⟨fun h => h.elim id ?_, .inl⟩
      rintro ⟨rfl, rfl, -⟩
      refine hbound.resolve_right fun hnone => ?_
      rw [hnone] at hparent
      contradiction

/-- Where a closure is called, a scope is made under its lambda node. -/
theorem extend (b : Rebinding) (around : List Rebinding) (outer : ScopeId) :
    BindsAlike Shown (w ++ [b :: around]) (store.extend outer).2 (store'.extend outer).2 where
  size := by rw [size_extend, size_extend, hs.size]
  binding found z := by
    rw [binding?_extend, binding?_extend]
    by_cases hlt : found < w.length
    · have hrel := hs.binding found z
      rw [World.perm_append hlt]
      generalize store.binding? found z = o at hrel ⊢
      generalize store'.binding? found (w.perm found z) = o' at hrel ⊢
      cases hrel with
      | some hv => exact .some (hv.mono (List.prefix_append w _))
      | none => exact .none
    · have hle : store.scopes.size ≤ found := hs.length ▸ Nat.le_of_not_lt hlt
      rw [binding?_eq_none (not_binds_of_size_le hle),
        binding?_eq_none (not_binds_of_size_le (hs.size ▸ hle))]
      exact .none

/-- The scope of a body binds the parameters under their names in either store. -/
theorem entered (b : Rebinding) (label : Nat) (body body' : Code) (hscope : w[s]? = some around)
    {args args' : List Value} (hargs : List.Forall₂ (Value.Rebound Shown w) args args') :
    Store.Rebound Shown (w ++ [b :: around]) (entered store ⟨label, b.params, body, s⟩ args)
      (LambdaScript.entered store' ⟨label, b.params.map b.perm, body', s⟩ args') := by
  have hgrows : w <+: w ++ [b :: around] := List.prefix_append w _
  have hlt : s < store.scopes.size := by
    rw [hs.length]
    exact (List.getElem?_eq_some_iff.mp hscope).1
  have hnew : (w ++ [b :: around])[store.scopes.size]? = some (b :: around) := by
    rw [hs.length]
    exact List.getElem?_concat_length
  have hextends := extends_entered store.scopes.size store ⟨label, b.params, body, s⟩ args
  constructor
  · have hbinds := (hs.extend b around s).bindParams store.scopes.size b.params
      (hargs.imp fun _ _ hv => hv.mono hgrows)
    rw [World.perm_cons hnew] at hbinds
    show BindsAlike Shown _ _ (bindParams _ store'.scopes.size _ _)
    rw [hs.size]
    exact hbinds
  · rw [size_entered, hs.length, List.length_append]
    rfl
  · intro found
    rw [LambdaScript.entered, LambdaScript.entered, parent?_bindParams, parent?_bindParams,
      parent?_extend, parent?_extend, hs.parent, hs.size]
  · intro found around' hfound
    by_cases hold : found < store.scopes.size
    · rw [List.getElem?_append_left (hs.length ▸ hold)] at hfound
      have hparent := hextends.parent?_eq found hold
      cases hs.nested found around' hfound with
      | root hroot => exact .root (hparent.trans hroot)
      | inner hinner houter hbinds =>
        refine .inner (hparent.trans hinner) (World.getElem?_of_prefix hgrows houter) fun z => ?_
        exact (hextends.binds_iff found hold (Nat.ne_of_lt hold) z).trans (hbinds z)
    · -- there is one scope more, and that is the new one
      obtain ⟨hsize, -⟩ := List.getElem?_eq_some_iff.mp hfound
      rw [List.length_append, ← hs.length] at hsize
      obtain rfl : found = store.scopes.size :=
        Nat.le_antisymm (Nat.le_of_lt_succ hsize) (Nat.le_of_not_lt hold)
      rw [hnew] at hfound
      cases hfound
      exact .inner (parent?_entered args hlt) (World.getElem?_of_prefix hgrows hscope)
        (binds_entered store _ args)

end Rebound
end Store
end LambdaScript
