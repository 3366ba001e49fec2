import LambdaScript.Proofs.Tracking
/-!
# What looking at and taking tokens keeps

The grammar has no other access to its source than to look at the next token, to take it, and to ask
for the offset and the interner. So what these steps keep is kept by everything that is read
(`Parser.Invariant`, `Grammar.keeps_program`).
-/

namespace LambdaScript

variable {σ α β : Type} [TokenSource σ]

namespace Parser

open TokenSource

/-- What is known of a source after a step that was taken where `I` holds: `I` again if it
succeeded, and `E` if it failed. -/
def Leaves (I : σ → Prop) (E : SyntaxError → σ → Prop) : Except LexError α × σ → Prop
  | (.ok _, s) => I s
  | (.error e, s) => E (.lexical e) s

/-- What the single steps of a token source keep. -/
structure Invariant (I : σ → Prop) (E : SyntaxError → σ → Prop) : Prop where
  peek : ∀ s, I s → Leaves I E (TokenSource.peek s)
  next : ∀ s, I s → Leaves I E (TokenSource.next s)
  fail : ∀ s e, I s → E (.grammatical e) s

/-- From a source of which `I` holds the parser comes to another one, or fails as `E` says. -/
def Keeps (I : σ → Prop) (E : SyntaxError → σ → Prop) (p : Parser σ α) : Prop :=
  ∀ s, I s → match p s with
    | .done _ s => I s
    | .failed e s => E e s
    | .unfinished => True

variable {I : σ → Prop} {E : SyntaxError → σ → Prop}

/-! ## Steps put together -/

section
omit [TokenSource σ]

theorem keeps_pure (a : α) : Keeps I E (pure a : Parser σ α) := fun _ hs => hs

theorem keeps_outOfFuel : Keeps I E (Run.outOfFuel : Parser σ α) := fun _ _ => trivial

theorem keeps_get : Keeps I E (Run.get : Parser σ σ) := fun _ hs => hs

theorem keeps_bind {p : Parser σ α} {f : α → Parser σ β} (hp : Keeps I E p)
    (hf : ∀ a, Keeps I E (f a)) : Keeps I E (p >>= f) := by
  intro s hs
  have hfirst := hp s hs
  rw [Run.bind_apply]
  cases hresult : p s with
  | done a t =>
    rw [hresult] at hfirst
    exact hf a t hfirst
  | failed e t =>
    rw [hresult] at hfirst
    exact hfirst
  | unfinished => trivial

theorem keeps_ite {c : Prop} [Decidable c] {p q : Parser σ α} (hp : Keeps I E p)
    (hq : Keeps I E q) : Keeps I E (if c then p else q) := by
  split
  · exact hp
  · exact hq

theorem keeps_ofSource {step : σ → Except LexError α × σ} (h : ∀ s, I s → Leaves I E (step s)) :
    Keeps I E (ofSource step) := by
  intro s hs
  have hleaves := h s hs
  unfold ofSource Run.mapError Run.ofStep
  rcases hstep : step s with ⟨e | a, t⟩
  · rw [hstep] at hleaves
    exact hleaves
  · rw [hstep] at hleaves
    exact hleaves

end

namespace Invariant

variable (h : Invariant I E)
include h

/-! ## Single tokens -/

theorem keeps_peek : Keeps I E (Parser.peek : Parser σ _) := keeps_ofSource h.peek

theorem keeps_advance : Keeps I E (advance : Parser σ _) := keeps_ofSource h.next

theorem keeps_atEnd : Keeps I E (atEnd : Parser σ _) :=
  keeps_bind h.keeps_peek fun _ => keeps_pure _

theorem keeps_nextIsPunct (p : Punct) : Keeps I E (nextIsPunct p : Parser σ _) :=
  keeps_bind h.keeps_peek fun _ => keeps_pure _

theorem keeps_nextIsKeyword (k : Keyword) : Keeps I E (nextIsKeyword k : Parser σ _) :=
  keeps_bind h.keeps_peek fun _ => keeps_pure _

theorem keeps_failAt (fault : ParseFault) (span : Span) :
    Keeps I E (failAt fault span : Parser σ α) :=
  fun s hs => h.fail s ⟨fault, span⟩ hs

theorem keeps_failExpected (expected : String) (found : Option Token) :
    Keeps I E (failExpected expected found : Parser σ α) := by
  cases found with
  | some token =>
    exact keeps_bind (keeps_bind keeps_get fun _ => keeps_pure _) fun _ => h.keeps_failAt _ _
  | none =>
    exact keeps_bind (keeps_bind keeps_get fun _ => keeps_pure _) fun _ => h.keeps_failAt _ _

theorem keeps_expect (test : Token → Bool) (expected : String) :
    Keeps I E (expect test expected : Parser σ _) := by
  refine keeps_bind h.keeps_peek fun found => ?_
  cases found with
  | none => exact h.keeps_failExpected expected none
  | some token =>
    refine keeps_ite ?_ (h.keeps_failExpected expected _)
    exact keeps_bind h.keeps_advance fun _ => keeps_pure _

theorem keeps_expectPunct (p : Punct) : Keeps I E (expectPunct p : Parser σ _) :=
  h.keeps_expect _ _

theorem keeps_expectKeyword (k : Keyword) : Keeps I E (expectKeyword k : Parser σ _) :=
  h.keeps_expect _ _

/-! ## Lists in brackets -/

section
variable {b : Brackets} {item : Parser σ α} (hitem : Keeps I E item)
include hitem

theorem keeps_moreItems (fuel : Nat) (before : List α) :
    Keeps I E (moreItems b item fuel before) := by
  induction fuel generalizing before with
  | zero => exact keeps_outOfFuel
  | succ fuel ih =>
    refine keeps_bind (h.keeps_nextIsPunct _) fun _ => keeps_ite (keeps_pure _) ?_
    refine keeps_bind (h.keeps_expectPunct _) fun _ => ?_
    refine keeps_bind (h.keeps_nextIsPunct _) fun _ => keeps_ite (keeps_pure _) ?_
    exact keeps_bind hitem fun next => ih (next :: before)

theorem keeps_items (fuel : Nat) : Keeps I E (items b item fuel) := by
  refine keeps_bind (h.keeps_nextIsPunct _) fun _ => keeps_ite (keeps_pure _) ?_
  exact keeps_bind hitem fun first => h.keeps_moreItems hitem fuel [first]

theorem keeps_delimited (fuel : Nat) : Keeps I E (delimited b item fuel) := by
  refine keeps_bind (h.keeps_expectPunct _) fun _ => ?_
  refine keeps_bind (h.keeps_items hitem fuel) fun _ => ?_
  exact keeps_bind (h.keeps_expectPunct _) fun _ => keeps_pure _

end

end Invariant
end Parser

namespace Grammar

open LambdaScript.Parser

variable {I : σ → Prop} {E : SyntaxError → σ → Prop} (h : Invariant I E)
include h

/-! ## Forms made of expressions -/

theorem keeps_parameter : Keeps I E (parameter : Parser σ _) := by
  refine keeps_bind h.keeps_peek fun found => ?_
  rcases found with _ | ⟨kind, span⟩
  · exact keeps_bind (keeps_bind keeps_get fun _ => keeps_pure _) fun _ => h.keeps_failAt _ _
  cases kind with
  | identifier name => exact keeps_bind h.keeps_advance fun _ => keeps_pure _
  | _ =>
    exact keeps_bind (keeps_bind keeps_get fun _ => keeps_pure _) fun _ => h.keeps_failAt _ _

section
variable {e : Parser σ Tree} (he : Keeps I E e)
include he

theorem keeps_block (fuel : Nat) : Keeps I E (block e fuel) := by
  refine keeps_bind (h.keeps_delimited he fuel) fun found => ?_
  obtain ⟨items, span⟩ := found
  match items with
  | [] => exact keeps_pure _
  | [_] => exact keeps_pure _
  | _ :: _ :: _ => exact keeps_pure _

omit he in
theorem keeps_optionalThen : Keeps I E (optionalThen : Parser σ _) := by
  refine keeps_bind (h.keeps_nextIsPunct _) fun _ => keeps_ite (keeps_pure _) ?_
  exact keeps_bind (h.keeps_expectKeyword _) fun _ => keeps_pure _

theorem keeps_conditional : Keeps I E (conditional e) := by
  refine keeps_bind (h.keeps_expectKeyword _) fun _ => keeps_bind he fun _ => ?_
  refine keeps_bind (keeps_optionalThen h) fun _ => keeps_bind he fun _ => ?_
  refine keeps_bind (h.keeps_nextIsKeyword _) fun _ => keeps_ite ?_ (keeps_pure _)
  exact keeps_bind h.keeps_advance fun _ => keeps_bind he fun _ => keeps_pure _

theorem keeps_loop : Keeps I E (loop e) := by
  refine keeps_bind (h.keeps_expectKeyword _) fun _ => keeps_bind he fun _ => ?_
  exact keeps_bind (keeps_optionalThen h) fun _ => keeps_bind he fun _ => keeps_pure _

theorem keeps_lambda (fuel : Nat) : Keeps I E (lambda e fuel) := by
  refine keeps_bind (h.keeps_expectKeyword _) fun _ => ?_
  refine keeps_bind (h.keeps_delimited (keeps_parameter h) fuel) fun _ => ?_
  exact keeps_bind he fun _ => keeps_pure _

theorem keeps_bracketed : Keeps I E (bracketed e) := by
  refine keeps_bind (h.keeps_expectPunct _) fun _ => keeps_bind he fun _ => ?_
  exact keeps_bind (h.keeps_expectPunct _) fun _ => keeps_pure _

omit he in
theorem keeps_leaf (tree : Tree) : Keeps I E (leaf tree : Parser σ _) :=
  keeps_bind h.keeps_advance fun _ => keeps_pure _

theorem keeps_primary (fuel : Nat) : Keeps I E (primary e fuel) := by
  refine keeps_bind h.keeps_peek fun found => ?_
  rcases found with _ | ⟨kind, span⟩
  · exact h.keeps_failExpected _ _
  dsimp only
  split
  · exact keeps_bracketed h he
  · exact keeps_block h he fuel
  · exact keeps_conditional h he
  · exact keeps_loop h he
  · exact keeps_lambda h he fuel
  iterate 5 exact keeps_leaf h _
  · exact keeps_bind (keeps_bind keeps_get fun _ => keeps_pure _) fun _ => h.keeps_failAt _ _

end

theorem keeps_nextConnective : Keeps I E (nextConnective : Parser σ _) := by
  refine keeps_bind h.keeps_peek fun found => ?_
  rcases found with _ | ⟨kind, span⟩
  · exact keeps_pure _
  cases kind with
  | operator name => exact keeps_bind keeps_get fun _ => keeps_pure _
  | _ => exact keeps_pure _

theorem keeps_combine (c : Connective) (left right : Tree) :
    Keeps I E (combine c left right : Parser σ _) := by
  unfold combine
  split
  · exact keeps_pure _
  · exact keeps_pure _
  · exact h.keeps_failAt _ _

/-! ## Expressions -/

/-- The functions that call one another, by induction on their fuel. -/
theorem keeps_expressions (fuel : Nat) :
    Keeps I E (expression fuel : Parser σ Tree) ∧ Keeps I E (atom fuel : Parser σ Tree) ∧
      (∀ left bound, Keeps I E (climb fuel left bound : Parser σ Tree)) ∧
      ∀ callee, Keeps I E (suffixes fuel callee : Parser σ Tree) := by
  induction fuel with
  | zero =>
    refine ⟨?_, ?_, fun left bound => ?_, fun callee => ?_⟩
    all_goals
      first | rw [expression] | rw [atom] | rw [climb] | rw [suffixes]
      exact keeps_outOfFuel
  | succ fuel ih =>
    obtain ⟨hexpression, hatom, hclimb, hsuffixes⟩ := ih
    refine ⟨?_, ?_, fun left bound => ?_, fun callee => ?_⟩
    · rw [expression]
      refine keeps_bind hatom fun first => ?_
      exact keeps_bind (hclimb first 0) fun whole => hsuffixes whole
    · rw [atom]
      exact keeps_bind (keeps_primary h hexpression fuel) fun callee => hsuffixes callee
    · rw [climb]
      refine keeps_bind (keeps_nextConnective h) fun found => ?_
      cases found with
      | none => exact keeps_pure _
      | some c =>
        refine keeps_ite (keeps_pure _) (keeps_bind h.keeps_advance fun _ => ?_)
        refine keeps_bind hatom fun first => keeps_bind (hclimb first _) fun right => ?_
        exact keeps_bind (keeps_combine h c left right) fun whole => hclimb whole bound
    · rw [suffixes]
      refine keeps_bind (h.keeps_nextIsPunct _) fun _ => keeps_ite ?_ (keeps_pure _)
      refine keeps_bind (h.keeps_delimited hexpression fuel) fun found => ?_
      exact hsuffixes _

/-! ## Programs -/

theorem keeps_programItems (fuel : Nat) (before : List Tree) :
    Keeps I E (programItems fuel before : Parser σ _) := by
  induction fuel generalizing before with
  | zero => exact keeps_outOfFuel
  | succ fuel ih =>
    refine keeps_bind h.keeps_atEnd fun _ => keeps_ite (keeps_pure _) ?_
    refine keeps_bind (keeps_expressions h fuel).1 fun item => ?_
    refine keeps_bind h.keeps_atEnd fun ended => ?_
    cases ended with
    | true => exact keeps_bind (keeps_pure ()) fun _ => ih (item :: before)
    | false => exact keeps_bind (h.keeps_expectPunct _) fun _ => ih (item :: before)

theorem keeps_program (fuel : Nat) : Keeps I E (program fuel : Parser σ _) :=
  keeps_bind (keeps_programItems h fuel []) fun _ => keeps_pure _

/-- Reading a program, from its first token to where it stops. -/
theorem keeps_parse {s : σ} (hs : I s) : match parse s with
    | (.ok _, rest) => I rest
    | (.error e, rest) => E e rest := by
  have hgives : (program (budget s)).Gives s (fun _ rest => I rest) E := by
    have hkeeps := keeps_program h (budget s) s hs
    have hfinished := (ends_program s).finished
    unfold Run.Gives
    cases houtcome : program (budget s) s with
    | done tree rest =>
      rw [houtcome] at hkeeps
      exact hkeeps
    | failed e rest =>
      rw [houtcome] at hkeeps
      exact hkeeps
    | unfinished =>
      rw [houtcome] at hfinished
      exact hfinished
  rcases hgives.result (ends_program s).finished with
    ⟨tree, rest, hparse, hrest⟩ | ⟨e, rest, hparse, hrest⟩
  · rw [show parse s = _ from hparse]
    exact hrest
  · rw [show parse s = _ from hparse]
    exact hrest

end Grammar
end LambdaScript
