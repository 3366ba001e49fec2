import LambdaScript.Proofs.Nesting
/-!
# Properties of bound closures

A store `BindsOnly` closures with a property if all closures that its scopes bind to names have it.
New scopes bind nothing, so that this has to be shown of the values alone that are bound.
-/

namespace LambdaScript.Store

/-- All closures that are bound to names have the property. -/
def BindsOnly (P : Closure → Prop) (store : Store) : Prop :=
  ∀ scope x c, store.binding? scope x = some (.function (.closure c)) → P c

namespace BindsOnly

variable {P Q : Closure → Prop} {store : Store} {scope found : ScopeId} {x : Name} {value : Value}
  {c : Closure} {args : List Value}

theorem imp (h : store.BindsOnly P) (himp : ∀ c, P c → Q c) : store.BindsOnly Q :=
  fun scope x c hc => himp c (h scope x c hc)

theorem define (h : store.BindsOnly P) (hvalue : ∀ c, value = .function (.closure c) → P c) :
    (store.define found x value).BindsOnly P := by
  intro scope y c hc
  rw [binding?_define] at hc
  split at hc
  · exact hvalue c (Option.some.inj hc)
  · exact h scope y c hc

theorem newScope (h : store.BindsOnly P) (parent : Option ScopeId) :
    (store.newScope parent).2.BindsOnly P := by
  intro scope x c hc
  rw [binding?_newScope] at hc
  exact h scope x c hc

/-- Entering the body of a closure binds the arguments. -/
theorem entered (h : store.BindsOnly P) (hargs : ∀ d, .function (.closure d) ∈ args → P d) :
    (entered store c args).BindsOnly P := by
  intro scope y d hd
  rcases eq_of_binding?_bindParams hd with hd | hd | hd
  · exact h.newScope _ scope y d hd
  · contradiction
  · exact hargs d hd

/-- What a name is bound to in the nearest scope that binds it is bound to the name. -/
theorem get (h : store.BindsOnly P) (hget : store.get scope x = some (.function (.closure c))) :
    P c := by
  rw [get_eq_lookup] at hget
  obtain ⟨found, -, hbinding⟩ := Option.bind_eq_some_iff.mp hget
  exact h found x c hbinding

end BindsOnly

end LambdaScript.Store
