import LambdaScript.Proofs.Following
/-!
# Parameters and arguments

Parameters may repeat, and there may be fewer or more arguments than parameters. The scope in which
the body of a closure starts is new and stands inside the scope of the closure. It binds exactly the
parameters, each to the argument that stands where the parameter occurs last, and to `false` if
there is none (`BindsParams`). Surplus arguments make no difference, and no other scope changes
(`callClosure_binds`).
-/

namespace LambdaScript

open Store

section
variable {store : Store} {scope found : ScopeId} {params : List Name} {args : List Value} {x : Name}
  {k : Nat}

/-- The first parameter is bound to the first argument, or to `false` if there is none. -/
theorem bindParams_cons (store : Store) (scope : ScopeId) (param : Name) (params : List Name)
    (args : List Value) : bindParams store scope (param :: params) args =
      bindParams (store.define scope param (args.headD (.bool false))) scope params args.tail := by
  cases args <;> rfl

/-- Binding parameters leaves all other scopes as they are. -/
theorem scopes_bindParams (store : Store) (params : List Name) (args : List Value)
    (h : found ≠ scope) :
    (bindParams store scope params args).scopes[found]? = store.scopes[found]? := by
  induction params generalizing store args with
  | nil => rfl
  | cons param params ih => rw [bindParams_cons, ih, scopes_define, if_neg h.symm]

/-- A name that is no parameter stays as it is. -/
theorem binding?_bindParams_of_notMem (store : Store) (args : List Value) (h : x ∉ params) :
    (bindParams store scope params args).binding? found x = store.binding? found x := by
  induction params generalizing store args with
  | nil => rfl
  | cons param params ih =>
    rw [List.mem_cons, not_or] at h
    rw [bindParams_cons, ih _ _ h.2, binding?_define, if_neg fun hand => h.1 hand.2.1.symm]

/-- A parameter is bound to the argument that stands where it occurs last. -/
theorem binding?_bindParams_last (args : List Value) (hscope : scope < store.scopes.size)
    (hx : params[k]? = some x) (hlast : ∀ j, k < j → params[j]? ≠ some x) :
    (bindParams store scope params args).binding? scope x =
      some (args.getD k (.bool false)) := by
  induction params generalizing store args k with
  | nil => contradiction
  | cons param params ih =>
    rw [bindParams_cons]
    cases k with
    | zero =>
      -- what is bound here is not bound again
      have hrest : x ∉ params := by
        intro hmem
        obtain ⟨j, hj⟩ := List.getElem?_of_mem hmem
        exact hlast (j + 1) (Nat.succ_pos j) hj
      obtain rfl := Option.some.inj hx
      rw [binding?_bindParams_of_notMem _ _ hrest, binding?_define, if_pos ⟨rfl, rfl, hscope⟩]
      cases args <;> rfl
    | succ k =>
      have hbehind : ∀ j, k < j → params[j]? ≠ some x :=
        fun j hj => hlast (j + 1) (Nat.succ_lt_succ hj)
      rw [ih args.tail (by rwa [size_define]) hx hbehind]
      cases args <;> rfl

/-- Arguments behind the last parameter are dropped. -/
theorem bindParams_take (store : Store) (scope : ScopeId) (params : List Name)
    (args : List Value) :
    bindParams store scope params (args.take params.length) =
      bindParams store scope params args := by
  induction params generalizing store args with
  | nil => rfl
  | cons param params ih =>
    rw [bindParams_cons, bindParams_cons]
    cases args with
    | nil => rfl
    | cons arg args => exact ih _ args

end

/-! ## Calls -/

/-- In `after` the scope `inner` is a new one for the body of `c`, which binds the parameters to the
arguments. -/
structure BindsParams (before : Store) (c : Closure) (args : List Value) (inner : ScopeId)
    (after : Store) : Prop where
  /-- No scope there is has this number. -/
  new : inner = before.scopes.size
  parent : after.parent? inner = some c.scope
  binds_iff : ∀ x, after.Binds inner x ↔ x ∈ c.params
  /-- Of a repeated parameter the last one counts, also if there is no argument for it. -/
  last : ∀ x k, c.params[k]? = some x → (∀ j, k < j → c.params[j]? ≠ some x) →
    after.binding? inner x = some (args.getD k (.bool false))
  others : ∀ s, s ≠ inner → after.scopes[s]? = before.scopes[s]?

theorem bindsParams_entered {store : Store} {c : Closure} (args : List Value)
    (h : c.scope < store.scopes.size) :
    BindsParams store c args (store.extend c.scope).1 (entered store c args) where
  new := rfl
  parent := parent?_entered args h
  binds_iff x := binds_entered store c args x
  last x k hx hlast := binding?_bindParams_last args (lt_size_extend store c.scope) hx hlast
  others s hs := by
    have hne : s ≠ store.scopes.size := hs
    rw [entered, scopes_bindParams _ _ _ hs]
    simp [extend, newScope, Array.getElem?_push, hne]

/-- Below the limit of nested calls, the body of a closure starts in a scope that binds the
parameters to the arguments, with nothing else changed but the depth. Arguments behind the last
parameter influence nothing. -/
theorem callClosure_binds {c : Closure} {m : Machine} (ctx : Context) (sub : Evaluator)
    (args : List Value) (hscope : c.scope < m.store.scopes.size) :
    (m.depth < ctx.limit → ∃ inner store, BindsParams m.store c args inner store ∧
      callClosure ctx sub c args m = (sub c.body inner).deeper { m with store := store }) ∧
    callClosure ctx sub c (args.take c.params.length) m = callClosure ctx sub c args m := by
  constructor
  · intro hdepth
    refine ⟨_, _, bindsParams_entered args hscope, ?_⟩
    rw [Translation.callClosure_apply, if_neg (Nat.not_le_of_lt hdepth), Run.bind_apply,
      enterScope_apply]
  · have henter : enterScope c (args.take c.params.length) m = enterScope c args m := by
      rw [enterScope_apply, enterScope_apply, entered, bindParams_take, ← entered]
    rw [Translation.callClosure_apply, Translation.callClosure_apply, Run.bind_apply,
      Run.bind_apply, henter]

/-- A function `lambda (x, y, x) y`, `x` and `y` having the numbers 7 and 8. -/
def repeatedParameter : Closure := ⟨0, [⟨7⟩, ⟨8⟩, ⟨7⟩], .var .dummy ⟨8⟩, 0⟩

/-- A machine with a single scope, which is a root. -/
def rootMachine : Machine := ⟨Store.empty.newRoot.2, .buffer "", #[], 0⟩

/-- With a single argument, `x` is `false` all the same, since it occurs again behind it. -/
theorem callClosure_binds_repeatedParameter : ∃ store,
    store.binding? 1 ⟨7⟩ = some (.bool false) ∧ store.binding? 1 ⟨8⟩ = some (.bool false) ∧
      callClosure ⟨.fresh, 1⟩ (eval ⟨.fresh, 1⟩ 1) repeatedParameter [.bool true] rootMachine =
        (eval ⟨.fresh, 1⟩ 1 (.var .dummy ⟨8⟩) 1).deeper { rootMachine with store := store } := by
  have hscope : repeatedParameter.scope < rootMachine.store.scopes.size := Nat.zero_lt_one
  have hdepth : rootMachine.depth < (Context.mk .fresh 1).limit := Nat.zero_lt_one
  obtain ⟨inner, store, hbinds, hstart⟩ :=
    (callClosure_binds ⟨.fresh, 1⟩ (eval ⟨.fresh, 1⟩ 1) [.bool true] hscope).1 hdepth
  obtain rfl : inner = 1 := hbinds.new
  refine ⟨store, hbinds.last ⟨7⟩ 2 rfl ?_, hbinds.last ⟨8⟩ 1 rfl ?_, hstart⟩
  · rintro (_ | _ | _ | j) hj <;> simp_all [repeatedParameter]
  · rintro (_ | _ | _ | j) hj <;> simp_all [repeatedParameter]

end LambdaScript
