import Mathlib.Logic.Relation
import LambdaScript.Grammar.Totality
import LambdaScript.Proofs.Taking
/-!
# How deep the grammar goes

The parsers of the grammar call each other, and what a parser makes of a stream depends on its calls
alone. `Routine` lists these parsers and `Routine.body` is one of them without its calls, which may
be answered by anything. A body is not changed by other answers to calls on streams that have as
many tokens left as its own (`Grammar.agrees_body`): it makes no such calls, except that an
expression begins with an atom. From this it follows

* that fuel twice the number of tokens is enough, and more changes nothing (`Grammar.program_eq`),
* that expressions and atoms take at least one token (`Grammar.spends`), and
* that a chain of calls, each of which is made by the one before, is at most twice as long as the
  number of tokens (`Grammar.Activation.length_chain_le`).
-/

namespace LambdaScript

namespace Run

variable {ε σ α β : Type} {x y : Run ε σ α} {s : σ}

/-- Where `x` comes to an end on `s`, `y` comes to the same, and `Q` holds of a value and the state
behind it. -/
def CoveredAt (x y : Run ε σ α) (s : σ) (Q : α → σ → Prop) : Prop :=
  match x s with
  | .done a t => y s = .done a t ∧ Q a t
  | .failed e t => y s = .failed e t
  | .unfinished => True

theorem coveredAt_outOfFuel {Q : α → σ → Prop} : CoveredAt outOfFuel y s Q := trivial

theorem coveredAt_self {Q : α → σ → Prop} (h : x.Yields s Q) : x.CoveredAt x s Q := by
  unfold CoveredAt
  cases hx : x s with
  | done a t => exact ⟨rfl, h a t hx⟩
  | failed e t => rfl
  | unfinished => trivial

theorem coveredAt_bind {f g : α → Run ε σ β} {Q : β → σ → Prop}
    (h : x.CoveredAt y s fun a t => (f a).CoveredAt (g a) t Q) :
    (x >>= f).CoveredAt (y >>= g) s Q := by
  unfold CoveredAt at h ⊢
  rw [bind_apply, bind_apply]
  cases hx : x s with
  | done a t =>
    rw [hx] at h
    rw [h.1]
    exact h.2
  | failed e t =>
    rw [hx] at h
    rw [h]
  | unfinished => trivial

theorem coveredAt_pure {a : α} {Q : α → σ → Prop} (h : Q a s) :
    CoveredAt (pure a : Run ε σ α) (pure a) s Q := coveredAt_self (yields_pure h)

/-- The first step is the same in both. -/
theorem coveredAt_step {f g : α → Run ε σ β} {Q : β → σ → Prop}
    (h : x.Yields s fun a t => (f a).CoveredAt (g a) t Q) : (x >>= f).CoveredAt (x >>= g) s Q :=
  coveredAt_bind (coveredAt_self h)

namespace CoveredAt

variable {P Q : α → σ → Prop}

theorem imp (h : x.CoveredAt y s P) (himp : ∀ a t, P a t → Q a t) : x.CoveredAt y s Q := by
  unfold CoveredAt at h ⊢
  cases hx : x s with
  | done a t =>
    rw [hx] at h
    exact ⟨h.1, himp a t h.2⟩
  | failed e t =>
    rw [hx] at h
    exact h
  | unfinished => trivial

theorem yields (h : x.CoveredAt y s Q) : x.Yields s Q := by
  intro a t hx
  unfold CoveredAt at h
  rw [hx] at h
  exact h.2

theorem eq (h : x.CoveredAt y s Q) (hfinished : (x s).Finished) : y s = x s := by
  unfold CoveredAt at h
  cases hx : x s with
  | done a t =>
    rw [hx] at h
    exact h.1
  | failed e t =>
    rw [hx] at h
    exact h
  | unfinished =>
    rw [hx] at hfinished
    exact hfinished.elim

end CoveredAt

end Run

open Run

namespace Parser

variable {α : Type} {b : Brackets} {x y : Parser TokenStream α} {s : TokenStream}
  {fuel fuel' : Nat}

/-- Where `x` comes to an end on `s`, `y` comes to the same, and a token at least is taken. -/
def Spends (x y : Parser TokenStream α) (s : TokenStream) : Prop :=
  x.CoveredAt y s fun _ t => t.left.length < s.left.length

/-! ## Lists in brackets -/

/-- The number of items that a list can have is bounded by the tokens that are left. -/
theorem coveredAt_moreItems (fuel fuel' : Nat) (before : List α) (s : TokenStream)
    (hitem : ∀ t : TokenStream, t.left.length ≤ s.left.length → Spends x y t)
    (hfuel : fuel ≤ fuel' ∨ s.left.length < fuel') :
    (moreItems b x fuel before).CoveredAt (moreItems b y fuel' before) s
      fun _ t => t.left.length ≤ s.left.length := by
  induction fuel generalizing fuel' before s with
  | zero => exact coveredAt_outOfFuel
  | succ fuel ih =>
    obtain ⟨f, rfl⟩ : ∃ f, fuel' = f + 1 := ⟨fuel' - 1, by omega⟩
    refine coveredAt_step (yields_nextIsPunct fun look t _ _ ht => ?_)
    rw [← ht] at hitem hfuel ⊢
    cases look.any (·.isPunct b.closing) with
    | true => exact coveredAt_pure (Nat.le_refl _)
    | false =>
      refine coveredAt_step (yields_expectPunct fun _ u hu => ?_)
      refine coveredAt_step (yields_nextIsPunct fun look v _ _ hv => ?_)
      rw [← hv] at hu
      cases look.any (·.isPunct b.closing) with
      | true => exact coveredAt_pure (Nat.le_of_lt hu)
      | false =>
        refine coveredAt_bind ((hitem v (Nat.le_of_lt hu)).imp fun next w hw => ?_)
        exact (ih f _ w (fun t ht => hitem t (by omega)) (by omega)).imp fun _ _ _ => by omega

theorem coveredAt_items
    (hitem : ∀ t : TokenStream, t.left.length ≤ s.left.length → Spends x y t)
    (hfuel : fuel ≤ fuel' ∨ s.left.length ≤ fuel') :
    (items b x fuel).CoveredAt (items b y fuel') s fun _ t => t.left.length ≤ s.left.length := by
  refine coveredAt_step (yields_nextIsPunct fun look t _ _ ht => ?_)
  rw [← ht] at hitem hfuel ⊢
  cases look.any (·.isPunct b.closing) with
  | true => exact coveredAt_pure (Nat.le_refl _)
  | false =>
    refine coveredAt_bind ((hitem t (Nat.le_refl _)).imp fun first u hu => ?_)
    exact (coveredAt_moreItems fuel fuel' _ u (fun v hv => hitem v (by omega)) (by omega)).imp
      fun _ _ _ => by omega

theorem spends_delimited
    (hitem : ∀ t : TokenStream, t.left.length < s.left.length → Spends x y t)
    (hfuel : fuel ≤ fuel' ∨ s.left.length ≤ fuel') :
    Spends (delimited b x fuel) (delimited b y fuel') s := by
  refine coveredAt_step (yields_expectPunct fun _ t ht => ?_)
  refine coveredAt_bind ((coveredAt_items (fun u hu => hitem u (by omega)) (by omega)).imp
    fun _ u hu => ?_)
  exact coveredAt_step (yields_expectPunct fun _ v hv => coveredAt_pure (by omega))

end Parser

namespace Grammar

open TokenStream LambdaScript.Parser

/-! ## Forms made of expressions -/

section
variable {e e' : Parser TokenStream Tree} {s : TokenStream} {fuel fuel' : Nat}
  (he : ∀ t : TokenStream, t.left.length < s.left.length → Spends e e' t)
include he

theorem spends_block (hfuel : fuel ≤ fuel' ∨ s.left.length ≤ fuel') :
    Spends (block e fuel) (block e' fuel') s := by
  refine coveredAt_bind ((spends_delimited he hfuel).imp fun result t ht => ?_)
  obtain ⟨items, span⟩ := result
  match items with
  | [] => exact coveredAt_pure ht
  | [_] => exact coveredAt_pure ht
  | _ :: _ :: _ => exact coveredAt_pure ht

omit he in
theorem yields_optionalThen {Q : Unit → TokenStream → Prop}
    (h : ∀ t, t.left.length ≤ s.left.length → Q () t) :
    (optionalThen : Parser TokenStream _).Yields s Q := by
  refine yields_bind (yields_nextIsPunct fun look t _ _ ht => ?_)
  rw [← ht] at h
  cases look.any (·.isPunct .openBrace) with
  | true => exact yields_pure (h t (Nat.le_refl _))
  | false =>
    exact yields_bind (yields_expectKeyword fun _ u hu => yields_pure (h u (Nat.le_of_lt hu)))

theorem spends_conditional : Spends (conditional e) (conditional e') s := by
  refine coveredAt_step (yields_expectKeyword fun _ t ht => ?_)
  refine coveredAt_bind ((he t ht).imp fun _ u hu => ?_)
  refine coveredAt_step (yields_optionalThen fun v hv => ?_)
  refine coveredAt_bind ((he v (by omega)).imp fun _ w hw => ?_)
  refine coveredAt_step (yields_nextIsKeyword fun look x _ hpeeked hx => ?_)
  have hxlt : x.left.length < s.left.length := by
    rw [hx]
    omega
  cases look.any (·.isKeyword .elseWord) with
  | true =>
    refine coveredAt_step (yields_advance hpeeked fun y hy => ?_)
    have hylt : y.left.length < s.left.length := by
      rw [hy, List.length_append] at hxlt
      omega
    exact coveredAt_bind ((he y hylt).imp fun _ z hz => coveredAt_pure (by omega))
  | false => exact coveredAt_pure hxlt

theorem spends_loop : Spends (loop e) (loop e') s := by
  refine coveredAt_step (yields_expectKeyword fun _ t ht => ?_)
  refine coveredAt_bind ((he t ht).imp fun _ u hu => ?_)
  refine coveredAt_step (yields_optionalThen fun v hv => ?_)
  refine coveredAt_bind ((he v (by omega)).imp fun _ w hw => ?_)
  exact coveredAt_pure (by omega)

theorem spends_lambda (hfuel : fuel ≤ fuel' ∨ s.left.length ≤ fuel') :
    Spends (lambda e fuel) (lambda e' fuel') s := by
  refine coveredAt_step (yields_expectKeyword fun _ t ht => ?_)
  have hparameters : Spends (delimited .round parameter fuel)
      (delimited .round parameter fuel') t :=
    spends_delimited (fun u _ => coveredAt_self (yields_parameter fun _ v hv => hv)) (by omega)
  refine coveredAt_bind (hparameters.imp fun _ u hu => ?_)
  exact coveredAt_bind ((he u (by omega)).imp fun _ v hv => coveredAt_pure (by omega))

theorem spends_bracketed : Spends (bracketed e) (bracketed e') s := by
  refine coveredAt_step (yields_expectPunct fun _ t ht => ?_)
  refine coveredAt_bind ((he t ht).imp fun _ u hu => ?_)
  exact coveredAt_step (yields_expectPunct fun _ v hv => coveredAt_pure (by omega))

theorem spends_primary (hfuel : fuel ≤ fuel' ∨ s.left.length ≤ fuel') :
    Spends (primary e fuel) (primary e' fuel') s := by
  refine coveredAt_step (yields_peek fun look t _ hpeeked ht => ?_)
  rw [← ht] at he hfuel ⊢
  rcases look with _ | ⟨kind, span⟩
  · exact coveredAt_self (yields_failExpected _ _)
  have hleaf : ∀ tree : Tree, (leaf tree : Parser TokenStream _).Yields t
      fun _ u => u.left.length < t.left.length := by
    intro tree
    refine yields_bind (yields_advance hpeeked fun u hu => yields_pure ?_)
    rw [hu]
    exact Nat.lt_succ_self _
  dsimp only
  split
  · exact spends_bracketed he
  · exact spends_block he hfuel
  · exact spends_conditional he
  · exact spends_loop he
  · exact spends_lambda he hfuel
  iterate 5 exact coveredAt_self (hleaf _)
  · exact coveredAt_self fun _ _ hfail => nomatch hfail

end

/-! ## Parsers without their calls -/

/-- The parsers that call each other. -/
inductive Routine where
  | expression
  | atom
  | climb (left : Tree) (bound : Nat)
  | suffixes (callee : Tree)

namespace Routine

def parser (fuel : Nat) : Routine → Parser TokenStream Tree
  | expression => Grammar.expression fuel
  | atom => Grammar.atom fuel
  | climb left bound => Grammar.climb fuel left bound
  | suffixes callee => Grammar.suffixes fuel callee

/-- A parser without its calls: `call` gives the answers to them, and `again` stands for the rounds
that follow if the parser is a loop. -/
def body (call again : Routine → Parser TokenStream Tree) (fuel : Nat) :
    Routine → Parser TokenStream Tree
  | expression => do
    let first ← call atom
    let whole ← call (climb first 0)
    call (suffixes whole)
  | atom => do
    let callee ← primary (call expression) fuel
    call (suffixes callee)
  | climb left bound => do
    match ← nextConnective with
    | none => return left
    | some c =>
      if c.precedence ≤ bound then return left
      else
        let _ ← advance
        let first ← call atom
        let right ← call (climb first c.rightBound)
        let whole ← combine c left right
        again (climb whole bound)
  | suffixes callee => do
    if ← nextIsPunct .openParen then
      let (args, span) ← delimited .round (call expression) fuel
      again (suffixes (.call (callee.span.merge span) callee args))
    else return callee

theorem parser_succ (a : Routine) (fuel : Nat) :
    a.parser (fuel + 1) = a.body (parser fuel) (parser fuel) fuel := by
  cases a with
  | expression => rw [parser, Grammar.expression]; rfl
  | atom => rw [parser, Grammar.atom]; rfl
  | climb left bound => rw [parser, Grammar.climb]; rfl
  | suffixes callee => rw [parser, Grammar.suffixes]; rfl

/-- Whether a routine takes a token: expressions and atoms do, the others may find nothing. -/
def Takes (s t : TokenStream) : Routine → Prop
  | expression | atom => t.left.length < s.left.length
  | climb _ _ | suffixes _ => t.left.length ≤ s.left.length

/-- The routines that are met inside each other again and again. -/
def Nests : Routine → Prop
  | expression | climb _ _ => True
  | atom | suffixes _ => False

/-- Two answers to the call of a routine on a stream agree, as far as the first one is given. -/
def Agrees (call call' : Routine → Parser TokenStream Tree) (a : Routine) (s : TokenStream) :
    Prop :=
  (call a).CoveredAt (call' a) s fun _ t => a.Takes s t

end Routine

open Routine

/-- What a parser does depends on calls on streams with fewer tokens, except that an expression
calls an atom first. -/
theorem agrees_body {call call' : Routine → Parser TokenStream Tree} {s : TokenStream}
    {fuel fuel' : Nat} (a : Routine)
    (hcall : ∀ b t, t.left.length < s.left.length → Agrees call call' b t)
    (hatom : a = .expression → Agrees call call' .atom s)
    (hfuel : fuel ≤ fuel' ∨ s.left.length ≤ fuel') :
    Agrees (body call call fuel) (body call' call' fuel') a s := by
  have hexpression : ∀ t : TokenStream, t.left.length < s.left.length →
      Spends (call .expression) (call' .expression) t := fun t ht => hcall .expression t ht
  cases a with
  | expression =>
    refine coveredAt_bind ((hatom rfl).imp fun first t (ht : _ < _) => ?_)
    refine coveredAt_bind ((hcall (.climb first 0) t ht).imp fun whole u (hu : _ ≤ _) => ?_)
    exact (hcall (.suffixes whole) u (by omega)).imp fun _ v (hv : _ ≤ _) => by
      show v.left.length < s.left.length
      omega
  | atom =>
    refine coveredAt_bind ((spends_primary hexpression hfuel).imp fun callee t ht => ?_)
    exact (hcall (.suffixes callee) t ht).imp fun _ u (hu : _ ≤ _) => by
      show u.left.length < s.left.length
      omega
  | climb left bound =>
    refine coveredAt_step (yields_nextConnective fun look t _ hpeeked ht => ?_)
    rw [← ht] at hcall
    have hleave : CoveredAt (pure left : Parser TokenStream Tree) (pure left) t
        fun _ u => u.left.length ≤ s.left.length :=
      coveredAt_pure (Nat.le_of_eq (congrArg List.length ht))
    cases hconnective : look.bind (connective? t.names) with
    | none => exact hleave
    | some c =>
      dsimp only
      split
      · exact hleave
      -- the operator is taken before anything is called
      refine coveredAt_step (yields_advance hpeeked fun u hu => ?_)
      obtain ⟨token, rfl, -⟩ := Option.bind_eq_some_iff.mp hconnective
      have hult : u.left.length < t.left.length := by
        rw [hu]
        exact Nat.lt_succ_self _
      refine coveredAt_bind ((hcall .atom u hult).imp fun first v (hv : _ < _) => ?_)
      refine coveredAt_bind ((hcall (.climb first c.rightBound) v (by omega)).imp
        fun right w (hw : _ ≤ _) => ?_)
      refine coveredAt_step (yields_combine fun whole => ?_)
      refine (hcall (.climb whole bound) w (by omega)).imp fun _ x (hx : _ ≤ _) => ?_
      show x.left.length ≤ s.left.length
      rw [← ht]
      omega
  | suffixes callee =>
    refine coveredAt_step (yields_nextIsPunct fun look t _ _ ht => ?_)
    rw [← ht] at hcall hexpression hfuel
    cases look.any (·.isPunct .openParen) with
    | false => exact coveredAt_pure (Nat.le_of_eq (congrArg List.length ht))
    | true =>
      have hargs : Spends (delimited .round (call .expression) fuel)
          (delimited .round (call' .expression) fuel') t := spends_delimited hexpression hfuel
      refine coveredAt_bind (hargs.imp fun result u hu => ?_)
      refine (hcall (.suffixes _) u hu).imp fun _ v (hv : _ ≤ _) => ?_
      show v.left.length ≤ s.left.length
      rw [← ht]
      omega

/-! ## Fuel for every token -/

/-- The fuel that a routine needs on a stream. -/
def Routine.need (s : TokenStream) : Routine → Nat
  | expression => 2 * s.left.length + 2
  | _ => 2 * s.left.length + 1

/-- More fuel changes nothing, and the fuel that is needed is as good as more. -/
theorem agrees_of_le (fuel fuel' : Nat) (a : Routine) (s : TokenStream)
    (h : fuel ≤ fuel' ∨ a.need s ≤ fuel') : Agrees (parser fuel) (parser fuel') a s := by
  induction fuel generalizing fuel' a s with
  | zero =>
    have hnone : a.parser 0 = outOfFuel := by
      cases a with
      | expression => rw [parser, Grammar.expression]
      | atom => rw [parser, Grammar.atom]
      | climb left bound => rw [parser, Grammar.climb]
      | suffixes callee => rw [parser, Grammar.suffixes]
    rw [Agrees, hnone]
    exact coveredAt_outOfFuel
  | succ fuel ih =>
    have hneed : 2 * s.left.length + 1 ≤ a.need s := by
      cases a <;> simp only [need] <;> omega
    obtain ⟨f, rfl⟩ : ∃ f, fuel' = f + 1 := ⟨fuel' - 1, by omega⟩
    rw [Agrees, parser_succ, parser_succ]
    -- a call with fewer tokens left needs two units less, and the atom of an expression one
    refine agrees_body a (fun b t ht => ih f b t ?_) (fun ha => ih f .atom s ?_) (by omega)
    · have hless : b.need t ≤ 2 * t.left.length + 2 := by
        cases b <;> simp only [need] <;> omega
      omega
    · subst ha
      simp only [need] at h ⊢
      omega

/-- Expressions and atoms take a token at least, and nothing puts a token back. -/
theorem spends (fuel : Nat) (a : Routine) (s : TokenStream) :
    (a.parser fuel).Yields s fun _ t => a.Takes s t :=
  (agrees_of_le fuel fuel a s (.inl (Nat.le_refl fuel))).yields

/-! ## Programs -/

theorem coveredAt_programItems (fuel fuel' : Nat) (before : List Tree) (s : TokenStream)
    (h : fuel ≤ fuel' ∨ 2 * s.left.length + 3 ≤ fuel') :
    (programItems fuel before).CoveredAt (programItems fuel' before) s fun _ _ => True := by
  induction fuel generalizing fuel' before s with
  | zero => exact coveredAt_outOfFuel
  | succ fuel ih =>
    obtain ⟨f, rfl⟩ : ∃ f, fuel' = f + 1 := ⟨fuel' - 1, by omega⟩
    refine coveredAt_step (yields_atEnd fun ended t ht => ?_)
    rw [← ht] at h
    cases ended with
    | true => exact coveredAt_pure trivial
    | false =>
      have hitem : Agrees (parser fuel) (parser f) .expression t :=
        agrees_of_le fuel f .expression t (by simp only [need]; omega)
      refine coveredAt_bind (hitem.imp fun item u (hu : _ < _) => ?_)
      refine coveredAt_step (yields_atEnd fun ended v hv => ?_)
      rw [← hv] at hu
      cases ended with
      | true => exact coveredAt_step (yields_pure (ih f _ v (by omega)))
      | false => exact coveredAt_step (yields_expectPunct fun _ w hw => ih f _ w (by omega))

/-- With fuel for every token a program is read to its end or to its first error, and more fuel
changes nothing. -/
theorem program_eq {fuel : Nat} {s : TokenStream} (h : 2 * s.left.length + 3 ≤ fuel) :
    program fuel s = program (budget s) s := by
  have hcovered : (program (budget s)).CoveredAt (program fuel) s fun _ _ => True :=
    coveredAt_bind ((coveredAt_programItems (budget s) fuel [] s (.inr h)).imp
      fun _ _ _ => coveredAt_pure trivial)
  exact hcovered.eq (ends_program s).finished

/-! ## Chains of calls -/

/-- A routine and the stream it is begun on. -/
structure Activation where
  routine : Routine
  stream : TokenStream

namespace Activation

open Classical in
/-- All calls are answered as by `call`, but the activation `y` does not come to an end. -/
noncomputable def block (call : Routine → Parser TokenStream Tree) (y : Activation) :
    Routine → Parser TokenStream Tree :=
  fun a s => if a = y.routine ∧ s = y.stream then .unfinished else call a s

/-- The first activation makes the second one: it comes to an end, and would not if the second one
did not. The rounds of a loop count as calls. -/
def Calls (x y : Activation) : Prop :=
  ∃ fuel, (x.routine.body (parser fuel) (parser fuel) fuel x.stream).Finished ∧
    ¬(x.routine.body (y.block (parser fuel)) (y.block (parser fuel)) fuel x.stream).Finished

/-- A bound for the chains of calls that begin with an activation. -/
def rank (x : Activation) : Nat :=
  match x.routine with
  | .expression | .climb _ _ => 2 * x.stream.left.length + 1
  | .atom | .suffixes _ => 2 * x.stream.left.length

variable {x y : Activation}

theorem agrees_block {fuel : Nat} {a : Routine} {s : TokenStream}
    (h : ¬(a = y.routine ∧ s = y.stream)) :
    Agrees (parser fuel) (y.block (parser fuel)) a s := by
  have hsame : y.block (parser fuel) a s = a.parser fuel s := if_neg h
  have hself := agrees_of_le fuel fuel a s (.inl (Nat.le_refl fuel))
  unfold Agrees CoveredAt at hself ⊢
  rw [hsame]
  exact hself

/-- An expression begins with an atom, on its own stream. -/
theorem calls_atom (s : TokenStream) : Calls ⟨.expression, s⟩ ⟨.atom, s⟩ := by
  refine ⟨4 * TokenSource.size s + 3, ?_, ?_⟩
  · rw [← parser_succ]
    exact ((ends_expressions (4 * TokenSource.size s + 4)).1 s (Nat.le_refl _)).finished
  · have hblocked : ∀ call, block call ⟨.atom, s⟩ .atom s = .unfinished :=
      fun call => if_pos ⟨rfl, rfl⟩
    have hwhole : ∀ call fuel, body (block call ⟨.atom, s⟩) (block call ⟨.atom, s⟩) fuel
        .expression s = .unfinished := fun call fuel => bind_of_unfinished (hblocked call)
    rw [hwhole]
    exact Outcome.not_finished_unfinished

/-- What is called has fewer tokens left, except for the atom that an expression begins with. -/
theorem Calls.left_lt (h : x.Calls y) : y.stream.left.length < x.stream.left.length ∨
    x.routine = .expression ∧ y.routine = .atom ∧ y.stream = x.stream := by
  obtain ⟨fuel, hfinished, hblocked⟩ := h
  -- otherwise the body makes no such call, and does not notice that it is blocked
  refine Classical.byContradiction fun hnot => ?_
  obtain ⟨hle, hother⟩ := not_or.mp hnot
  have hbody : Agrees (body (parser fuel) (parser fuel) fuel)
      (body (y.block (parser fuel)) (y.block (parser fuel)) fuel) x.routine x.stream := by
    refine agrees_body x.routine (fun b t ht => agrees_block ?_) (fun hx => agrees_block ?_)
      (.inl (Nat.le_refl fuel))
    · rintro ⟨-, rfl⟩
      exact hle ht
    · rintro ⟨hy, hstream⟩
      exact hother ⟨hx, hy.symm, hstream.symm⟩
  rw [hbody.eq hfinished] at hblocked
  exact hblocked hfinished

theorem Calls.rank_lt (h : x.Calls y) : y.rank < x.rank := by
  obtain ⟨a, s⟩ := x
  obtain ⟨b, t⟩ := y
  rcases h.left_lt with hlt | ⟨rfl, rfl, rfl⟩
  · have hless : t.left.length < s.left.length := hlt
    cases a <;> cases b <;> simp only [rank] <;> omega
  · exact Nat.lt_succ_self _

theorem rank_lt_of_transGen (h : Relation.TransGen Calls x y) : y.rank < x.rank := by
  induction h with
  | single hcall => exact hcall.rank_lt
  | tail _ hcall ih => exact Nat.lt_trans hcall.rank_lt ih

theorem rank_of_nests (h : x.routine.Nests) : x.rank = 2 * x.stream.left.length + 1 := by
  obtain ⟨a, s⟩ := x
  cases a with
  | expression => rfl
  | climb left bound => rfl
  | atom => exact h.elim
  | suffixes callee => exact h.elim

/-- Between two expressions or runs of operators, one inside the other, there is a token. -/
theorem left_lt_of_transGen (h : Relation.TransGen Calls x y) (hx : x.routine.Nests)
    (hy : y.routine.Nests) : y.stream.left.length < x.stream.left.length := by
  have hrank := rank_lt_of_transGen h
  rw [rank_of_nests hx, rank_of_nests hy] at hrank
  omega

/-- A chain of calls is at most twice as long as the number of tokens. -/
theorem length_chain_le (chain : List Activation) (h : (x :: chain).IsChain Calls) :
    chain.length ≤ x.rank := by
  induction chain generalizing x with
  | nil => exact Nat.zero_le _
  | cons y chain ih =>
    obtain ⟨hcall, hrest⟩ := List.isChain_cons_cons.mp h
    have hlt := hcall.rank_lt
    have hle := ih hrest
    rw [List.length_cons]
    omega

end Activation

end Grammar

end LambdaScript
