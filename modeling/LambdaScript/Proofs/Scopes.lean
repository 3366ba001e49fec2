import LambdaScript.Store
/-!
# Laws of scopes

What a scope binds, and which scope is around it, after each operation on a store; and the chain of
scopes from one scope outwards (`Store.chain`), along which names are looked up.
-/

namespace LambdaScript.Store

variable {store : Store} {scope inner outer : ScopeId} {x y : Name} {value : Value}

/-- The scope itself binds the name. -/
def Binds (store : Store) (scope : ScopeId) (x : Name) : Prop :=
  (store.binding? scope x).isSome = true

instance : Decidable (store.Binds scope x) :=
  inferInstanceAs (Decidable ((store.binding? scope x).isSome = true))

theorem binds_iff : store.Binds scope x ↔ ∃ value, store.binding? scope x = some value :=
  Option.isSome_iff_exists

theorem binding?_eq_none (h : ¬store.Binds scope x) : store.binding? scope x = none := by
  simpa [Binds] using h

/-! ## Binding a name -/

theorem scopes_define (scope found : ScopeId) : (store.define scope x value).scopes[found]? =
    if scope = found then
      store.scopes[found]?.map fun s => { s with bindings := s.bindings.insert x value }
    else store.scopes[found]? := by
  simp only [define, Array.getElem?_modify]

theorem size_define : (store.define scope x value).scopes.size = store.scopes.size := by
  simp only [define, Array.size_modify]

/-- The scope around is the parent that was noted, which was made before. -/
theorem parent?_eq (store : Store) (scope : ScopeId) :
    store.parent? scope = (store.scopes[scope]?.bind Scope.parent).filter (· < scope) := by
  unfold parent?
  rcases store.scopes[scope]? with _ | ⟨bindings, _ | outer⟩
  · rfl
  · rfl
  · simp [Option.filter]

theorem parent?_define (found : ScopeId) :
    (store.define scope x value).parent? found = store.parent? found := by
  rw [parent?_eq, parent?_eq, scopes_define]
  split
  · rcases store.scopes[found]? with _ | s <;> rfl
  · rfl

theorem binding?_define (found : ScopeId) (y : Name) :
    (store.define scope x value).binding? found y =
      if scope = found ∧ x = y ∧ scope < store.scopes.size then some value
      else store.binding? found y := by
  unfold binding?
  rw [scopes_define]
  by_cases hscope : scope = found
  · subst hscope
    by_cases hlt : scope < store.scopes.size
    · simp [hlt, Std.TreeMap.getElem?_insert]
    · simp [hlt]
  · simp [hscope]

/-- Binding a name that is bound already, or one in another scope, makes nothing new visible. -/
theorem binds_define (found : ScopeId) (y : Name) : (store.define scope x value).Binds found y ↔
    store.Binds found y ∨ (scope = found ∧ x = y ∧ scope < store.scopes.size) := by
  unfold Binds
  rw [binding?_define]
  split
  · next h => exact ⟨fun _ => .inr h, fun _ => rfl⟩
  · next h => exact ⟨.inl, fun hor => hor.resolve_right h⟩

/-! ## A new scope -/

theorem size_extend : (store.extend outer).2.scopes.size = store.scopes.size + 1 := by
  simp [extend, newScope]

theorem lt_size_extend (store : Store) (outer : ScopeId) :
    (store.extend outer).1 < (store.extend outer).2.scopes.size := by
  rw [size_extend]
  exact Nat.lt_succ_self _

/-- A new scope binds nothing. -/
theorem binding?_newScope (parent : Option ScopeId) (found : ScopeId) (y : Name) :
    (store.newScope parent).2.binding? found y = store.binding? found y := by
  simp only [newScope, binding?, Array.getElem?_push]
  split
  · next h => simp [h]
  · rfl

theorem binding?_extend (found : ScopeId) (y : Name) :
    (store.extend outer).2.binding? found y = store.binding? found y :=
  binding?_newScope (some outer) found y

/-- What is around each scope, the new one or another. -/
theorem parent?_extend (found : ScopeId) : (store.extend outer).2.parent? found =
    if found = store.scopes.size then (some outer).filter (· < found) else store.parent? found := by
  rw [parent?_eq, parent?_eq]
  by_cases h : found = store.scopes.size
  · simp [extend, newScope, h]
  · simp [extend, newScope, Array.getElem?_push, h]

theorem parent?_extend_new (h : outer < store.scopes.size) :
    (store.extend outer).2.parent? (store.extend outer).1 = some outer := by
  have hnew : (store.extend outer).1 = store.scopes.size := rfl
  rw [parent?_extend, hnew, if_pos rfl]
  exact Option.filter_some_pos (decide_eq_true h)

theorem parent?_extend_old {found : ScopeId} (h : found < store.scopes.size) :
    (store.extend outer).2.parent? found = store.parent? found := by
  rw [parent?_extend, if_neg (Nat.ne_of_lt h)]

theorem not_binds_of_size_le (h : store.scopes.size ≤ scope) : ¬store.Binds scope x := by
  simp [Binds, binding?, h]

theorem lt_size_of_parent? (h : store.parent? scope = some outer) : scope < store.scopes.size := by
  rw [parent?_eq] at h
  by_cases hlt : scope < store.scopes.size
  · exact hlt
  · simp [hlt] at h

theorem parent?_of_size_le (h : store.scopes.size ≤ scope) : store.parent? scope = none := by
  rw [Option.eq_none_iff_forall_ne_some]
  intro outer hparent
  exact absurd (lt_size_of_parent? hparent) (Nat.not_lt_of_le h)

/-! ## Looking up names -/

theorem lookup_of_binds (h : store.Binds scope x) : store.lookup scope x = some scope := by
  obtain ⟨value, hvalue⟩ := binds_iff.mp h
  rw [lookup, hvalue]

theorem lookup_of_parent (h : ¬store.Binds scope x) (hparent : store.parent? scope = some outer) :
    store.lookup scope x = store.lookup outer x := by
  rw [lookup, binding?_eq_none h]
  simp only
  split
  · next found hfound =>
    rw [hparent] at hfound
    cases hfound
    rfl
  · next hfound =>
    rw [hparent] at hfound
    contradiction

theorem lookup_of_root (h : ¬store.Binds scope x) (hparent : store.parent? scope = none) :
    store.lookup scope x = none := by
  rw [lookup, binding?_eq_none h]
  simp only
  split
  · next found hfound =>
    rw [hparent] at hfound
    contradiction
  · rfl

/-- The value of a name is the one in the scope where it is found. -/
theorem get_eq_lookup (store : Store) (scope : ScopeId) (x : Name) :
    store.get scope x = (store.lookup scope x).bind fun found => store.binding? found x := by
  fun_induction lookup store scope x with
  | case1 scope value hvalue =>
    rw [get, hvalue]
    simp [hvalue]
  | case2 scope hnone outer hparent ih =>
    rw [get, hnone]
    simp only
    split
    · next found hfound =>
      rw [hparent] at hfound
      cases hfound
      exact ih
    · next hfound =>
      rw [hparent] at hfound
      contradiction
  | case3 scope hnone hparent =>
    rw [get, hnone]
    simp only
    split
    · next found hfound =>
      rw [hparent] at hfound
      contradiction
    · rfl

/-- The scopes from one scope outwards. -/
def chain (store : Store) (scope : ScopeId) : List ScopeId :=
  match _h : store.parent? scope with
  | some outer => scope :: store.chain outer
  | none => [scope]
termination_by scope
decreasing_by exact parent?_lt _h

theorem chain_of_parent (h : store.parent? scope = some outer) :
    store.chain scope = scope :: store.chain outer := by
  rw [chain]
  split
  · next found hfound =>
    rw [h] at hfound
    cases hfound
    rfl
  · next hfound =>
    rw [h] at hfound
    contradiction

theorem chain_of_root (h : store.parent? scope = none) : store.chain scope = [scope] := by
  rw [chain]
  split
  · next found hfound =>
    rw [h] at hfound
    contradiction
  · rfl

end LambdaScript.Store
