import Mathlib.Data.List.Chain
import Mathlib.Logic.Relation
import LambdaScript.Proofs.Scopes
/-!
# Scopes after any history

A store may have come about by any operations on its scopes (`Store.Made`). Its scopes then form a
forest: the parents that were noted never lead back, and always to a root (`Store.Lawful`). Names
are looked up along the way there.

A value that is written into a scope is seen by those scopes from which this one is reached before
any other that binds the name (`Store.Sees`), and by no others (`Store.Wrote`). This is so for a
name that is defined and for one that is set; the two differ in the scope that is written
(`Store.laws_of_made`).
-/

namespace LambdaScript.Store

variable {store : Store} {scope outer found e w : ScopeId} {x y : Name} {v : Value}

/-- `outer` was noted as the parent of `scope`. -/
def Inside (store : Store) (scope outer : ScopeId) : Prop :=
  store.scopes[scope]?.bind Scope.parent = some outer

/-- The store that is left behind when a name is set: the old one if that fails. -/
def afterSet (store : Store) (scope : ScopeId) (x : Name) (v : Value) : Store :=
  (store.set scope x v).getD store

/-- A store that has come about by making roots, making scopes inside others, and binding and
setting names, all by way of scopes that are there. -/
inductive Made : Store → Prop where
  | empty : Made .empty
  | newRoot {store : Store} (h : Made store) : Made store.newRoot.2
  | extend {store : Store} {scope : ScopeId} (h : Made store)
      (hscope : scope < store.scopes.size) : Made (store.extend scope).2
  | define {store : Store} {scope : ScopeId} (x : Name) (v : Value) (h : Made store)
      (hscope : scope < store.scopes.size) : Made (store.define scope x v)
  | set {store : Store} {scope : ScopeId} (x : Name) (v : Value) (h : Made store)
      (hscope : scope < store.scopes.size) : Made (store.afterSet scope x v)

/-! ## Parents -/

theorem inside_define : (store.define w x v).Inside scope outer ↔ store.Inside scope outer := by
  unfold Inside
  rw [scopes_define]
  split
  · rcases store.scopes[scope]? with _ | s <;> rfl
  · rfl

theorem inside_newScope {parent : Option ScopeId}
    (h : (store.newScope parent).2.Inside scope outer) :
    scope = store.scopes.size ∧ parent = some outer ∨ store.Inside scope outer := by
  unfold Inside at h ⊢
  simp only [newScope, Array.getElem?_push] at h
  split at h
  · next hnew => exact .inl ⟨hnew, h⟩
  · exact .inr h

/-- Setting a name writes one binding, or nothing. -/
theorem afterSet_eq (store : Store) (scope : ScopeId) (x : Name) (v : Value) :
    store.afterSet scope x v = store ∨ ∃ w, store.afterSet scope x v = store.define w x v := by
  unfold afterSet set
  rcases store.target? scope x with _ | w
  · exact .inl rfl
  · exact .inr ⟨w, rfl⟩

/-- A scope is made after the one around it. -/
theorem Made.lt_of_inside (h : Made store) (hin : store.Inside scope outer) : outer < scope := by
  induction h generalizing scope outer with
  | empty => simp [Inside, Store.empty] at hin
  | newRoot _ ih =>
    rcases inside_newScope hin with ⟨-, hparent⟩ | hold
    · contradiction
    · exact ih hold
  | extend _ hscope ih =>
    rcases inside_newScope hin with ⟨hnew, hparent⟩ | hold
    · cases hparent
      rw [hnew]
      exact hscope
    · exact ih hold
  | define x v _ _ ih => exact ih (inside_define.mp hin)
  | @set store e x v _ _ ih =>
    rcases store.afterSet_eq e x v with hsame | ⟨w, hwritten⟩
    · rw [hsame] at hin
      exact ih hin
    · rw [hwritten] at hin
      exact ih (inside_define.mp hin)

/-- The scope around is the one that was noted. -/
theorem Made.parent?_eq_some (h : Made store) :
    store.parent? scope = some outer ↔ store.Inside scope outer := by
  rw [parent?_eq, Option.filter_eq_some_iff, decide_eq_true_eq]
  exact ⟨And.left, fun hin => ⟨hin, h.lt_of_inside hin⟩⟩

theorem Made.lt_of_transGen (h : Made store) (hpath : Relation.TransGen store.Inside scope outer) :
    outer < scope := by
  induction hpath with
  | single hin => exact h.lt_of_inside hin
  | tail _ hin ih => exact Nat.lt_trans (h.lt_of_inside hin) ih

/-! ## The way out -/

/-- The path leads from `scope` through parents to a root of the store. -/
structure LeadsOut (store : Store) (scope : ScopeId) (path : List ScopeId) : Prop where
  head : path.head? = some scope
  inside : path.IsChain store.Inside
  root : ∃ root, path.getLast? = some root ∧ root < store.scopes.size ∧
    ∀ outer, ¬store.Inside root outer

theorem Made.leadsOut (h : Made store) (hscope : scope < store.scopes.size) :
    LeadsOut store scope (store.chain scope) := by
  fun_induction chain store scope with
  | case1 scope outer hparent ih =>
    have hin := h.parent?_eq_some.mp hparent
    have hout := ih (Nat.lt_trans (h.lt_of_inside hin) hscope)
    obtain ⟨root, hlast, hroot⟩ := hout.root
    refine ⟨rfl, List.IsChain.cons hout.inside ?_, root, ?_, hroot⟩
    · intro first hfirst
      rw [hout.head] at hfirst
      cases hfirst
      exact hin
    · rw [List.getLast?_cons, hlast]
      rfl
  | case2 scope hparent =>
    refine ⟨rfl, .singleton scope, scope, rfl, hscope, fun outer hin => ?_⟩
    rw [h.parent?_eq_some.mpr hin] at hparent
    contradiction

/-- A name is found in the first scope on the way out that binds it. -/
theorem lookup_eq_find? (store : Store) (scope : ScopeId) (x : Name) :
    store.lookup scope x = (store.chain scope).find? (store.Binds · x) := by
  fun_induction chain store scope with
  | case1 scope outer hparent ih =>
    rw [List.find?_cons]
    by_cases hbinds : store.Binds scope x
    · simp [hbinds, lookup_of_binds]
    · simp [hbinds, lookup_of_parent hbinds hparent, ih]
  | case2 scope hparent =>
    rw [List.find?_singleton]
    by_cases hbinds : store.Binds scope x
    · simp [hbinds, lookup_of_binds]
    · simp [hbinds, lookup_of_root hbinds hparent]

theorem binds_of_lookup (h : store.lookup scope x = some found) : store.Binds found x := by
  rw [lookup_eq_find?] at h
  simpa using List.find?_some h

theorem lt_size_of_lookup (h : store.lookup scope x = some found) : found < store.scopes.size :=
  Nat.lt_of_not_le fun hle => not_binds_of_size_le hle (binds_of_lookup h)

/-- What is known of the scopes of a store and of reading names in them. -/
structure Lawful (store : Store) : Prop where
  acyclic : ∀ scope, ¬Relation.TransGen store.Inside scope scope
  rooted : ∀ scope < store.scopes.size, LeadsOut store scope (store.chain scope)
  isRoot_iff : ∀ scope, store.isRoot scope = true ↔ ∀ outer, ¬store.Inside scope outer
  lookup_eq : ∀ scope x, store.lookup scope x = (store.chain scope).find? (store.Binds · x)
  get_isSome : ∀ scope x, (store.get scope x).isSome = (store.lookup scope x).isSome
  get_eq : ∀ scope x found, store.lookup scope x = some found →
    store.get scope x = store.binding? found x

theorem Made.lawful (h : Made store) : Lawful store := by
  constructor
  · intro scope hpath
    exact Nat.lt_irrefl scope (h.lt_of_transGen hpath)
  · intro scope hscope
    exact h.leadsOut hscope
  · intro scope
    rw [isRoot, Option.isNone_iff_eq_none, Option.eq_none_iff_forall_ne_some]
    exact forall_congr' fun outer => not_congr h.parent?_eq_some
  · exact store.lookup_eq_find?
  · intro scope x
    rw [get_eq_lookup]
    rcases hlookup : store.lookup scope x with _ | found
    · rfl
    · exact binds_of_lookup hlookup
  · intro scope x found hlookup
    rw [get_eq_lookup, hlookup]
    rfl

/-! ## Writing -/

/-- The first scope on the way out from `e` that is `w` or binds the name is `w`. -/
def Sees (store : Store) (e w : ScopeId) (x : Name) : Prop :=
  (store.chain e).find? (fun s => s = w ∨ store.Binds s x) = some w

instance : Decidable (store.Sees e w x) := inferInstanceAs (Decidable (_ = _))

/-- The value of `x` has been written into `w`: those that see it there read it, and nothing else is
read in another way than before. -/
structure Wrote (before after : Store) (w : ScopeId) (x : Name) (v : Value) : Prop where
  seen : ∀ e, before.Sees e w x → after.lookup e x = some w ∧ after.get e x = some v
  unseen : ∀ e, ¬before.Sees e w x →
    after.lookup e x = before.lookup e x ∧ after.get e x = before.get e x
  others : ∀ e y, y ≠ x → after.lookup e y = before.lookup e y ∧ after.get e y = before.get e y

/-- A name is seen where it is found. -/
theorem sees_of_lookup (h : store.lookup e x = some w) : store.Sees e w x := by
  have hbinds := binds_of_lookup h
  rw [lookup_eq_find?, List.find?_eq_some_iff_append] at h
  obtain ⟨-, front, back, hchain, hfront⟩ := h
  rw [Sees, List.find?_eq_some_iff_append]
  refine ⟨by simp, front, back, hchain, fun s hs => ?_⟩
  have hnot : ¬store.Binds s x := by simpa using hfront s hs
  have hne : s ≠ w := by
    rintro rfl
    exact hnot hbinds
  simp [hne, hnot]

theorem chain_define (e : ScopeId) : (store.define w x v).chain e = store.chain e := by
  fun_induction chain store e with
  | case1 e outer hparent ih =>
    rw [chain_of_parent ((parent?_define e).trans hparent), ih]
  | case2 e hparent => exact chain_of_root ((parent?_define e).trans hparent)

/-- A name that is bound in `w` is found there, unless another scope that binds it is nearer. -/
theorem lookup_define (hw : w < store.scopes.size) (e : ScopeId) :
    (store.define w x v).lookup e x =
      (store.chain e).find? (fun s => s = w ∨ store.Binds s x) := by
  rw [lookup_eq_find?, chain_define]
  congr 1
  funext s
  rw [decide_eq_decide, binds_define, eq_comm, or_comm]
  simp [hw]

theorem lookup_define_of_ne (hne : y ≠ x) (e : ScopeId) :
    (store.define w x v).lookup e y = store.lookup e y := by
  rw [lookup_eq_find?, lookup_eq_find?, chain_define]
  congr 1
  funext s
  rw [decide_eq_decide, binds_define]
  simp [hne.symm]

/-- Where `w` is not seen, the name is found as if `w` did not bind it. -/
theorem lookup_define_of_not_sees (hw : w < store.scopes.size) (h : ¬store.Sees e w x) :
    (store.define w x v).lookup e x = store.lookup e x := by
  rw [lookup_define hw, lookup_eq_find?]
  rcases hfind : (store.chain e).find? (fun s => s = w ∨ store.Binds s x) with _ | s
  · rw [eq_comm, List.find?_eq_none]
    rw [List.find?_eq_none] at hfind
    intro s hs hbinds
    exact hfind s hs (by simpa using .inr (of_decide_eq_true hbinds))
  · have hne : s ≠ w := by
      rintro rfl
      exact h hfind
    rw [List.find?_eq_some_iff_append] at hfind
    obtain ⟨hs, front, back, hchain, hfront⟩ := hfind
    rw [eq_comm, List.find?_eq_some_iff_append]
    refine ⟨by simpa [hne] using hs, front, back, hchain, fun t ht => ?_⟩
    have hnot := hfront t ht
    simp only [Bool.not_eq_true', decide_eq_false_iff_not, not_or] at hnot ⊢
    exact hnot.2

theorem wrote_define (hw : w < store.scopes.size) (x : Name) (v : Value) :
    Wrote store (store.define w x v) w x v := by
  have hbinding := @binding?_define store w x v
  constructor
  · intro e hsees
    have hlookup : (store.define w x v).lookup e x = some w := (lookup_define hw e).trans hsees
    refine ⟨hlookup, ?_⟩
    rw [get_eq_lookup, hlookup, Option.bind_some, hbinding, if_pos ⟨rfl, rfl, hw⟩]
  · intro e hsees
    have hlookup := lookup_define_of_not_sees (v := v) hw hsees
    refine ⟨hlookup, ?_⟩
    rw [get_eq_lookup, get_eq_lookup, hlookup]
    refine Option.bind_congr fun found hfound => ?_
    rw [hbinding, if_neg]
    rintro ⟨rfl, -⟩
    exact hsees (sees_of_lookup hfound)
  · intro e y hne
    have hlookup : (store.define w x v).lookup e y = store.lookup e y := lookup_define_of_ne hne e
    refine ⟨hlookup, ?_⟩
    rw [get_eq_lookup, get_eq_lookup, hlookup]
    refine Option.bind_congr fun found _ => ?_
    rw [hbinding, if_neg]
    rintro ⟨-, rfl, -⟩
    contradiction

/-- The scope that is written when a name is set: where the name is found, or else the scope itself
if it is a root. -/
theorem target?_eq_some : store.target? e x = some w ↔
    store.lookup e x = some w ∨ store.lookup e x = none ∧ store.isRoot e = true ∧ w = e := by
  unfold target?
  rcases store.lookup e x with _ | found
  · by_cases hroot : store.isRoot e = true
    · simp [hroot, eq_comm]
    · simp [hroot]
  · simp

theorem target?_eq_none :
    store.target? e x = none ↔ store.lookup e x = none ∧ store.isRoot e = false := by
  unfold target?
  rcases store.lookup e x with _ | found
  · by_cases hroot : store.isRoot e = true
    · simp [hroot]
    · simp [hroot]
  · simp

theorem lt_size_of_target? (he : e < store.scopes.size) (h : store.target? e x = some w) :
    w < store.scopes.size := by
  rcases target?_eq_some.mp h with hlookup | ⟨-, -, rfl⟩
  · exact lt_size_of_lookup hlookup
  · exact he

/-- Whatever has been done to a store: its scopes form a forest, and names are read on the way out
to a root. A name that is defined or set has its value from then on where the scope that was written
is seen, and nothing else is read in another way; which scope that is, and when there is none, is
told by where the name was found before. If there is none, then nothing is written. -/
theorem laws_of_made (h : Made store) : Lawful store ∧
    ∀ e < store.scopes.size, ∀ x v,
      Wrote store (store.define e x v) e x v ∧
      (∀ after, store.set e x v = some after → ∃ w,
        (store.lookup e x = some w ∨
          store.lookup e x = none ∧ store.isRoot e = true ∧ w = e) ∧
        Wrote store after w x v) ∧
      (store.set e x v = none ↔ store.lookup e x = none ∧ store.isRoot e = false) ∧
      (store.set e x v = none → ∀ s y,
        (store.afterSet e x v).lookup s y = store.lookup s y ∧
        (store.afterSet e x v).get s y = store.get s y) := by
  refine ⟨h.lawful, fun e he x v => ⟨wrote_define he x v, ?_, ?_, ?_⟩⟩
  · intro after hset
    obtain ⟨w, htarget, rfl⟩ := Option.map_eq_some_iff.mp hset
    exact ⟨w, target?_eq_some.mp htarget, wrote_define (lt_size_of_target? he htarget) x v⟩
  · rw [set, Option.map_eq_none_iff, target?_eq_none]
  · intro hset s y
    rw [afterSet, hset]
    exact ⟨rfl, rfl⟩

/-- A root, a scope in it that binds the same name again, a scope in that one, and another scope in
the root. -/
def nested : Store :=
  (((((empty.newRoot.2.define 0 ⟨1⟩ (.bool true)).extend 0).2.define 1 ⟨1⟩
    (.bool true)).extend 1).2.extend 0).2

theorem made_nested : Made nested :=
  ((((Made.empty.newRoot.define ⟨1⟩ (.bool true) (by decide)).extend (by decide)).define ⟨1⟩
    (.bool true) (by decide)).extend (by decide)).extend (by decide)

/-- Setting the name in the third scope writes the second one: this is seen from these two, and not
from the others. A name that is nowhere bound can be set in the root only. -/
theorem laws_of_made_nested : Made nested ∧
    (∃ after, nested.set 2 ⟨1⟩ (.bool false) = some after ∧
      Wrote nested after 1 ⟨1⟩ (.bool false)) ∧
    nested.Sees 2 1 ⟨1⟩ ∧ nested.Sees 1 1 ⟨1⟩ ∧ ¬nested.Sees 0 1 ⟨1⟩ ∧ ¬nested.Sees 3 1 ⟨1⟩ ∧
    nested.set 2 ⟨7⟩ (.bool false) = none ∧ nested.set 0 ⟨7⟩ (.bool false) ≠ none := by
  have hlookup : nested.lookup 2 ⟨1⟩ = some 1 := by decide +kernel
  obtain ⟨-, hlaws⟩ := laws_of_made made_nested
  obtain ⟨-, hset, hfails, -⟩ := hlaws 2 (by decide) ⟨1⟩ (.bool false)
  obtain ⟨-, -, hunbound, -⟩ := hlaws 2 (by decide) ⟨7⟩ (.bool false)
  obtain ⟨-, -, hroot, -⟩ := hlaws 0 (by decide) ⟨7⟩ (.bool false)
  refine ⟨made_nested, ?_, by decide +kernel, by decide +kernel, by decide +kernel,
    by decide +kernel, hunbound.mpr (by decide +kernel), fun h => ?_⟩
  · obtain ⟨after, hafter⟩ : ∃ after, nested.set 2 ⟨1⟩ (.bool false) = some after := by
      refine Option.ne_none_iff_exists'.mp fun h => ?_
      rw [hfails, hlookup] at h
      exact absurd h.1 (by decide)
    obtain ⟨w, hw, hwrote⟩ := hset after hafter
    rw [hlookup] at hw
    have hone : 1 = w := by simpa using hw
    exact ⟨after, hafter, hone ▸ hwrote⟩
  · exact absurd (hroot.mp h).2 (by decide +kernel)

end LambdaScript.Store
