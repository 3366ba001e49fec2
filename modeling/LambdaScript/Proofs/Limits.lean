import LambdaScript.Interpreter
import LambdaScript.Proofs.Following
/-!
# The limit of nested calls

A program that comes to an end within the limit comes to the same end under every higher limit, and
one that is stopped by its limit has printed and written the beginning of what it prints and writes
under a higher one (`RunsTo.raise_limit`). Neither does the fuel matter, once there is enough
(`RunsTo.unique`).
-/

namespace LambdaScript

/-! ## Runs of whole sources -/

namespace Interpreter

/-- The machine on which a program begins that is run on its own. -/
def startMachine (names : Interner) (console : Console) : Machine :=
  (build names console 0 []).1.machine

/-- The strings numbered when a program begins that is run on its own. -/
def startNames (names : Interner) : Interner := (build names (.buffer "") 0 []).2

theorem build_nil (names : Interner) (console : Console) (limit : Nat) :
    build names console limit [] =
      (⟨startMachine names console, 0, limit, 0⟩, startNames names) := rfl

end Interpreter

open Interpreter

/-- What is left of a machine when its run has ended. -/
def Outcome.leaving (names : Interner) :
    Outcome RuntimeError Machine Value → Outcome RunError Aftermath Value
  | .done value m => .done value ⟨names, m.console, m.writes⟩
  | .failed e m => .failed (.runtime e) ⟨names, m.console, m.writes⟩
  | .unfinished => .unfinished

/-- Running a source is reading it and evaluating the program. -/
theorem runSource_eq (source : String) (names : Interner) (limit : Nat) (console : Console)
    (fuel : Nat) : runSource source names limit console fuel =
      match parseSource source names with
      | (.error e, names) => .failed (.syntactic e) ⟨names, console, #[]⟩
      | (.ok tree, names) =>
        (eval ⟨startNames names, limit⟩ fuel (tree.numbered 0).1 0
          (startMachine names console)).leaving (startNames names) := by
  rw [runSource]
  rcases parseSource source names with ⟨e | tree, names⟩
  · rfl
  · simp only [build_nil, evalProgram, evalIn, evalCode, load, context, onMachine]
    cases eval ⟨startNames names, limit⟩ fuel (tree.numbered 0).1 0 (startMachine names console) <;>
      rfl

/-- The run comes to this end, given enough fuel. -/
def RunsTo (source : String) (names : Interner) (limit : Nat) (console : Console)
    (o : Outcome RunError Aftermath Value) : Prop :=
  o.Finished ∧ ∃ fuel, runSource source names limit console fuel = o

/-- Too many calls were nested. -/
def Outcome.Overflowed : Outcome RunError Aftermath Value → Prop
  | .failed (.runtime ⟨.stackOverflow _, _⟩) _ => True
  | _ => False

instance decidableFinished {ε σ α : Type} : (o : Outcome ε σ α) → Decidable o.Finished
  | .done _ _ | .failed _ _ => .isTrue trivial
  | .unfinished => .isFalse id

instance decidableOverflowed : (o : Outcome RunError Aftermath Value) → Decidable o.Overflowed
  | .failed (.runtime ⟨.stackOverflow _, _⟩) _ => .isTrue trivial
  | .failed (.runtime ⟨.undefinedVariable _, _⟩) _ | .failed (.runtime ⟨.notANumber _ _, _⟩) _
  | .failed (.runtime ⟨.invalidDenominator _ _, _⟩) _
  | .failed (.runtime ⟨.typeMismatch _ _ _, _⟩) _ | .failed (.runtime ⟨.notCallable _, _⟩) _
  | .failed (.runtime ⟨.wrongArgument _ _ _, _⟩) _ | .failed (.syntactic _) _ | .done _ _
  | .unfinished => .isFalse id

/-- What the run has left behind, if it came to an end. -/
def Outcome.aftermath? : Outcome RunError Aftermath Value → Option Aftermath
  | .done _ a | .failed _ a => some a
  | .unfinished => none

/-! ## A higher limit and more fuel -/

section
variable {names : Interner} {limit limit' : Nat}

/-- The same program under a higher limit and with more fuel. -/
def Translation.raise (names : Interner) (hlimit : limit ≤ limit') (extra : Nat) :
    Translation ⟨names, limit⟩ ⟨names, limit'⟩ where
  toRenaming := .id
  injective := fun _ _ h => h
  respells := fun _ => rfl
  limit_le := hlimit
  extra := extra

theorem Translation.raise_machines (hlimit : limit ≤ limit') (extra : Nat) (m : Machine) :
    (Translation.raise names hlimit extra).Machines m m := by
  refine ⟨⟨rfl, fun _ => rfl, fun scope x => ?_⟩, rfl, rfl, rfl⟩
  have hvalue : (Translation.raise names hlimit extra).value = id := funext Renaming.value_id
  rw [hvalue, Option.map_id]
  rfl

/-- What the second run leaves behind has the output of the first one at its beginning. -/
def Outcome.OutputLe (o o' : Outcome RunError Aftermath Value) : Prop :=
  ∀ a a', o.aftermath? = some a → o'.aftermath? = some a' →
    a.console.printed.toList <+: a'.console.printed.toList ∧ a.writes.toList <+: a'.writes.toList

theorem Outcome.OutputLe.refl (o : Outcome RunError Aftermath Value) : o.OutputLe o := by
  intro a a' ha ha'
  rw [ha] at ha'
  cases ha'
  exact ⟨List.prefix_refl _, List.prefix_refl _⟩

theorem Outcome.Extends.leaving {e : RuntimeError} {m : Machine}
    {o : Outcome RuntimeError Machine Value} (h : o.Extends m) (names : Interner) :
    Outcome.OutputLe (Outcome.leaving names (.failed e m)) (o.leaving names) := by
  intro a a' ha ha'
  cases ha
  cases o with
  | done value m' | failed e' m' =>
    cases ha'
    exact ⟨h.printed, h.writes⟩
  | unfinished => contradiction

/-- Under a higher limit and with more fuel a run comes to the same end, unless its limit stopped
it. -/
theorem runSource_raise (source : String) (console : Console) {fuel fuel' : Nat}
    (hlimit : limit ≤ limit') (hfuel : fuel ≤ fuel')
    (hfinished : (runSource source names limit console fuel).Finished) :
    runSource source names limit' console fuel' = runSource source names limit console fuel ∨
      limit < limit' ∧ (runSource source names limit console fuel).Overflowed ∧
        (runSource source names limit console fuel).OutputLe
          (runSource source names limit' console fuel') := by
  obtain ⟨extra, rfl⟩ := Nat.exists_eq_add_of_le hfuel
  revert hfinished
  rw [runSource_eq, runSource_eq]
  rcases parseSource source names with ⟨e | tree, names⟩
  · exact fun _ => .inl rfl
  dsimp only
  intro hfinished
  let T := Translation.raise (startNames names) hlimit extra
  have hfollows := T.imitates_eval fuel (tree.numbered 0).1 0 _ _
    (Translation.raise_machines hlimit extra (startMachine names console))
  rw [show T.expr (tree.numbered 0).1 = (tree.numbered 0).1 from Renaming.expr_id _,
    show T.extra = extra from rfl] at hfollows
  generalize eval ⟨startNames names, limit⟩ fuel (tree.numbered 0).1 0 _ = o at hfinished hfollows ⊢
  generalize eval ⟨startNames names, limit'⟩ (fuel + extra) (tree.numbered 0).1 0 _ = o' at *
  cases hfollows with
  | @done value m m' hm =>
    rw [show T.value value = value from Renaming.value_id value]
    exact .inl (by rw [Outcome.leaving, Outcome.leaving, hm.console, hm.writes])
  | @failed e m m' hm =>
    rw [show T.error e = e from Renaming.error_id e]
    exact .inl (by rw [Outcome.leaving, Outcome.leaving, hm.console, hm.writes])
  | @overflowed e m o' hless hfault ho =>
    refine .inr ⟨hless, ?_, ho.leaving _⟩
    obtain ⟨fault, span⟩ := e
    cases hfault
    trivial
  | unfinished | more => exact hfinished.elim

end

namespace RunsTo

variable {source : String} {names : Interner} {limit limit' : Nat} {console : Console}
  {o o' : Outcome RunError Aftermath Value}

/-- More fuel does not change the end of a run. -/
theorem exists_fuel (h : RunsTo source names limit console o) :
    ∃ fuel, ∀ more, fuel ≤ more → runSource source names limit console more = o := by
  obtain ⟨hfinished, fuel, rfl⟩ := h
  refine ⟨fuel, fun more hfuel => ?_⟩
  rcases runSource_raise source console (Nat.le_refl limit) hfuel hfinished with h | ⟨hless, -⟩
  · exact h
  · exact absurd hless (Nat.lt_irrefl limit)

/-- A run has one end. -/
theorem unique (h : RunsTo source names limit console o)
    (h' : RunsTo source names limit console o') : o = o' := by
  obtain ⟨fuel, hfuel⟩ := h.exists_fuel
  obtain ⟨fuel', hfuel'⟩ := h'.exists_fuel
  rw [← hfuel (max fuel fuel') (Nat.le_max_left _ _),
    hfuel' (max fuel fuel') (Nat.le_max_right _ _)]

theorem raise (hlimit : limit ≤ limit') (h : RunsTo source names limit console o) :
    ∃ fuel, ∀ more, fuel ≤ more → runSource source names limit' console more = o ∨
      o.Overflowed ∧ o.OutputLe (runSource source names limit' console more) := by
  obtain ⟨hfinished, fuel, rfl⟩ := h
  refine ⟨fuel, fun more hfuel => ?_⟩
  rcases runSource_raise source console hlimit hfuel hfinished with h | ⟨-, h, houtput⟩
  · exact .inl h
  · exact .inr ⟨h, houtput⟩

/-- A higher limit changes nothing for a run that was not stopped by its limit. One that was stopped
by it has made the beginning of the output of the run under the higher limit. -/
theorem raise_limit (hlimit : limit ≤ limit') (h : RunsTo source names limit console o) :
    (¬o.Overflowed → RunsTo source names limit' console o) ∧
      (o.Overflowed → ∀ o', RunsTo source names limit' console o' → o.OutputLe o') := by
  obtain ⟨fuel, hfuel⟩ := h.raise hlimit
  constructor
  · intro hno
    rcases hfuel fuel (Nat.le_refl _) with hsame | ⟨hover, -⟩
    · exact ⟨h.1, fuel, hsame⟩
    · exact absurd hover hno
  · intro _ o' h'
    obtain ⟨fuel', hfuel'⟩ := h'.exists_fuel
    have hrun := hfuel' (max fuel fuel') (Nat.le_max_right _ _)
    rcases hfuel (max fuel fuel') (Nat.le_max_left _ _) with hsame | ⟨-, houtput⟩
    · rw [← hrun, hsame]
      exact .refl o
    · rwa [hrun] at houtput

/-- A function that prints and then calls itself. -/
def nestedCall : String := "f = lambda (x) if x then \x7b print(x); f(false) \x7d; f(true)"

/-- Under the limit 1 there is one call too many. -/
theorem raise_limit_nestedCall : ∃ o o',
    RunsTo nestedCall .fresh 1 (.buffer "") o ∧ o.Overflowed ∧
    RunsTo nestedCall .fresh 2 (.buffer "") o' ∧ RunsTo nestedCall .fresh 3 (.buffer "") o' ∧
    o.OutputLe o' := by
  have hone : RunsTo nestedCall .fresh 1 (.buffer "") _ := ⟨by decide +kernel, 12, rfl⟩
  have htwo : RunsTo nestedCall .fresh 2 (.buffer "") _ := ⟨by decide +kernel, 12, rfl⟩
  exact ⟨_, _, hone, by decide +kernel, htwo, (htwo.raise_limit (by decide)).1 (by decide +kernel),
    (hone.raise_limit (by decide)).2 (by decide +kernel) _ htwo⟩

end RunsTo
end LambdaScript
