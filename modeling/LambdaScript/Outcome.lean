/-!
# Computations with a state that may fail or run out of fuel

Reading a program and running one are both described by functions that descend on a number, their
fuel. Such a function ends in one of three ways, and the three are kept apart:

* `Outcome.done`, with a value and the state afterwards;
* `Outcome.failed`, with an error and the state at that point, which later steps still see;
* `Outcome.unfinished`, when the fuel was too small to tell.

`Run ε σ` is the monad of such computations. `Run.Ends` says that a computation comes to an end and
what holds then; its lemmas follow the structure of the computation.
-/

namespace LambdaScript

/-- How a computation on a state `σ` ended. -/
inductive Outcome (ε σ α : Type) where
  | done (value : α) (state : σ)
  | failed (error : ε) (state : σ)
  | unfinished

namespace Outcome

variable {ε σ α : Type}

/-- The computation came to an end, in a value or in an error. -/
def Finished : Outcome ε σ α → Prop
  | unfinished => False
  | _ => True

@[simp] theorem finished_done (a : α) (s : σ) : (done a s : Outcome ε σ α).Finished := trivial

@[simp] theorem finished_failed (e : ε) (s : σ) : (failed e s : Outcome ε σ α).Finished := trivial

@[simp] theorem not_finished_unfinished : ¬(unfinished : Outcome ε σ α).Finished := id

/-- The result and the final state of a computation that came to an end. -/
def result : (o : Outcome ε σ α) → o.Finished → Except ε α × σ
  | done a s, _ => (.ok a, s)
  | failed e s, _ => (.error e, s)

end Outcome

/-- A computation that reads and changes a state `σ` and yields an `α` or an error `ε`. -/
def Run (ε σ α : Type) : Type := σ → Outcome ε σ α

namespace Run

variable {ε δ σ α β : Type}

@[always_inline, inline] protected def pure (a : α) : Run ε σ α := fun s => .done a s

@[always_inline, inline] protected def bind (x : Run ε σ α) (f : α → Run ε σ β) : Run ε σ β :=
  fun s =>
    match x s with
    | .done a s => f a s
    | .failed e s => .failed e s
    | .unfinished => .unfinished

instance : Monad (Run ε σ) where
  pure := Run.pure
  bind := Run.bind

/-- The current state. -/
@[always_inline, inline] protected def get : Run ε σ σ := fun s => .done s s

/-- Change the state by `f` and return what `f` gives beside it. -/
@[always_inline, inline] def update (f : σ → α × σ) : Run ε σ α := fun s =>
  let (a, s) := f s
  .done a s

/-- Replace the state by its image under `f`. -/
@[always_inline, inline] protected def modify (f : σ → σ) : Run ε σ Unit := fun s => .done () (f s)

/-- Stop with the error `e`. -/
@[always_inline, inline] def fail (e : ε) : Run ε σ α := fun s => .failed e s

/-- Stop because no fuel is left. -/
@[always_inline, inline] def outOfFuel : Run ε σ α := fun _ => .unfinished

/-- Change the error of a failing computation. -/
@[always_inline, inline] def mapError (f : ε → δ) (x : Run ε σ α) : Run δ σ α := fun s =>
  match x s with
  | .done a s => .done a s
  | .failed e s => .failed (f e) s
  | .unfinished => .unfinished

/-- A step that always ends, as a computation. -/
@[always_inline, inline] def ofStep (step : σ → Except ε α × σ) : Run ε σ α := fun s =>
  match step s with
  | (.ok a, s) => .done a s
  | (.error e, s) => .failed e s

/-! ## Laws -/

theorem bind_apply (x : Run ε σ α) (f : α → Run ε σ β) (s : σ) :
    (x >>= f) s = match x s with
      | .done a s => f a s
      | .failed e s => .failed e s
      | .unfinished => .unfinished := rfl

theorem map_apply (f : α → β) (x : Run ε σ α) (s : σ) :
    (f <$> x) s = match x s with
      | .done a s => .done (f a) s
      | .failed e s => .failed e s
      | .unfinished => .unfinished := rfl

theorem id_map_eq (x : Run ε σ α) : id <$> x = x := by
  funext s
  rw [map_apply]
  cases x s <;> rfl

theorem bind_assoc_eq {γ : Type} (x : Run ε σ α) (f : α → Run ε σ β) (g : β → Run ε σ γ) :
    x >>= f >>= g = x >>= fun a => f a >>= g := by
  funext s
  simp only [bind_apply]
  cases x s <;> rfl

instance : LawfulMonad (Run ε σ) :=
  LawfulMonad.mk' _ id_map_eq (fun _ _ => rfl) bind_assoc_eq

/-! ## Ends -/

/-- The computation comes to an end on `s`; if it yields a value, `Q` holds of value and state. -/
def Ends (x : Run ε σ α) (s : σ) (Q : α → σ → Prop) : Prop :=
  match x s with
  | .done a s => Q a s
  | .failed _ _ => True
  | .unfinished => False

theorem Ends.finished {x : Run ε σ α} {s : σ} {Q : α → σ → Prop} (h : x.Ends s Q) :
    (x s).Finished := by
  unfold Ends at h
  cases hx : x s <;> simp_all

theorem Ends.imp {x : Run ε σ α} {s : σ} {P Q : α → σ → Prop} (h : x.Ends s P)
    (himp : ∀ a s, P a s → Q a s) : x.Ends s Q := by
  unfold Ends at h ⊢
  cases hx : x s <;> simp_all

theorem ends_bind {x : Run ε σ α} {f : α → Run ε σ β} {s : σ} {Q : β → σ → Prop}
    (h : x.Ends s fun a s => (f a).Ends s Q) : (x >>= f).Ends s Q := by
  unfold Ends at h ⊢
  rw [bind_apply]
  cases hx : x s <;> simp_all

theorem ends_pure {a : α} {s : σ} {Q : α → σ → Prop} (h : Q a s) :
    (pure a : Run ε σ α).Ends s Q := h

theorem ends_get {s : σ} {Q : σ → σ → Prop} (h : Q s s) : (Run.get : Run ε σ σ).Ends s Q := h

end Run

end LambdaScript
