import LambdaScript.Proofs.Taking
/-!
# Where an expression stops

An atom takes in every list of arguments that follows it, and `climb` every operator that binds
tighter than its bound. So no bracket of arguments follows an atom, and neither such a bracket nor
an operator follows an expression (`Grammar.stops_everywhere`). The arguments that an expression
looks for at its end are therefore never there: a call belongs to the atom in front of it.

The invariant of `climb` is that no bracket of arguments follows what it has read. It holds where
`climb` is called, which is behind an atom, and operators are joined to atoms only.
-/

namespace LambdaScript

namespace TokenStream

/-- The stream shows its next token, and that opens no arguments. -/
def NoArguments (s : TokenStream) : Prop :=
  ∃ look, s.peek = (.ok look, s) ∧ look.any (·.isPunct .openParen) = false

/-- The stream shows its next token, and that makes no operand longer which takes in what binds
tighter than `b`. -/
def SettledAt (b : Nat) (s : TokenStream) : Prop :=
  ∃ look, s.peek = (.ok look, s) ∧ Grammar.Settled s.names b look

end TokenStream

namespace Grammar

theorem settled_iff {names : Interner} {b : Nat} {look : Option Token} :
    Settled names b look ↔ look.any (·.isPunct .openParen) = false ∧
      ∀ c, look.bind (connective? names) = some c → c.precedence ≤ b := by
  cases look with
  | none => exact ⟨fun _ => ⟨rfl, fun _ hc => nomatch hc⟩, fun _ _ ht => nomatch ht⟩
  | some token =>
    refine ⟨fun h => h token rfl, fun h t ht => ?_⟩
    cases ht
    exact h

/-- Every operator binds tighter than nothing. -/
theorem precedence_pos (c : Connective) : 0 < c.precedence := by
  cases c with
  | assignment => exact Nat.one_pos
  | binary op => cases op <;> decide

end Grammar

namespace TokenStream

variable {s t : TokenStream} {look : Option Token} {b : Nat}

theorem NoArguments.next (h : s.NoArguments) (hpeek : s.peek = (.ok look, t)) :
    look.any (·.isPunct .openParen) = false := by
  obtain ⟨shown, hshown, hopen⟩ := h
  rw [hshown] at hpeek
  cases hpeek
  exact hopen

theorem SettledAt.noArguments (h : s.SettledAt b) : s.NoArguments := by
  obtain ⟨look, hpeek, hlook⟩ := h
  exact ⟨look, hpeek, (Grammar.settled_iff.mp hlook).1⟩

end TokenStream

namespace Grammar

open TokenStream LambdaScript.Parser

variable {s : TokenStream}

/-! ## Arguments -/

/-- `suffixes` goes on until there are no more arguments. -/
theorem yields_suffixes (fuel : Nat) (callee : Tree) (s : TokenStream) :
    (suffixes fuel callee).Yields s fun _ t => t.NoArguments := by
  induction fuel generalizing callee s with
  | zero =>
    rw [suffixes]
    exact Run.yields_outOfFuel
  | succ fuel ih =>
    rw [suffixes]
    refine Run.yields_bind (yields_nextIsPunct fun look t _ hpeeked _ => ?_)
    cases hopen : look.any (·.isPunct .openParen) with
    | true => exact Run.yields_bind fun result u _ => ih _ u
    | false => exact Run.yields_pure ⟨look, peek_of_peeked hpeeked, hopen⟩

/-- Where there are no arguments, `suffixes` changes nothing. -/
theorem suffixes_of_noArguments (h : s.NoArguments) (fuel : Nat) (whole : Tree) :
    suffixes (fuel + 1) whole s = .done whole s := by
  obtain ⟨look, hpeek, hopen⟩ := h
  rw [suffixes, Run.bind_of_done (nextIsPunct_of_ok hpeek _), hopen]
  rfl

theorem yields_atom (fuel : Nat) (s : TokenStream) :
    (atom fuel).Yields s fun _ t => t.NoArguments := by
  cases fuel with
  | zero =>
    rw [atom]
    exact Run.yields_outOfFuel
  | succ fuel =>
    rw [atom]
    exact Run.yields_bind fun callee t _ => yields_suffixes fuel callee t

/-! ## Operators -/

/-- `climb` goes on until no operator follows that binds tighter than its bound. -/
theorem yields_climb (fuel : Nat) (left : Tree) (b : Nat) (s : TokenStream)
    (h : ∀ look t, s.peek = (.ok look, t) → look.any (·.isPunct .openParen) = false) :
    (climb fuel left b).Yields s fun _ t => t.SettledAt b := by
  induction fuel generalizing left b s with
  | zero =>
    rw [climb]
    exact Run.yields_outOfFuel
  | succ fuel ih =>
    rw [climb]
    refine Run.yields_bind (yields_nextConnective fun look t hpeek hpeeked _ => ?_)
    have hstops : (∀ c, look.bind (connective? t.names) = some c → c.precedence ≤ b) →
        t.SettledAt b := fun hc =>
      ⟨look, peek_of_peeked hpeeked, settled_iff.mpr ⟨h look t hpeek, hc⟩⟩
    cases hconnective : look.bind (connective? t.names) with
    | none =>
      refine Run.yields_pure (hstops fun c hc => ?_)
      rw [hconnective] at hc
      contradiction
    | some c =>
      dsimp only
      split
      · next hle =>
        refine Run.yields_pure (hstops fun c' hc' => ?_)
        rw [hconnective] at hc'
        cases hc'
        exact hle
      · refine Run.yields_bind fun _ u _ => ?_
        -- no arguments follow the operand, nor what is joined to it
        refine Run.yields_bind ((yields_atom fuel u).imp fun first v hv => ?_)
        refine Run.yields_bind ((ih first _ v fun _ _ => hv.next).imp fun right w hw => ?_)
        refine Run.yields_bind (yields_combine fun whole => ?_)
        exact ih whole b w fun _ _ => hw.noArguments.next

/-! ## Expressions -/

section
variable {fuel : Nat} {first whole : Tree} {t u : TokenStream}
  (hfirst : atom fuel s = .done first t) (hwhole : climb fuel first 0 t = .done whole u)
include hfirst hwhole

/-- No operator follows the operands that an expression is made of, and no arguments. -/
theorem settledAt_behind : u.SettledAt 0 := by
  have hbehind := yields_atom fuel s first t hfirst
  exact yields_climb fuel first 0 t (fun _ _ => hbehind.next) whole u hwhole

/-- The arguments that are looked for at the end of an expression are not there. -/
theorem suffixes_behind : suffixes fuel whole u = .done whole u := by
  cases fuel with
  | zero =>
    rw [atom] at hfirst
    cases hfirst
  | succ fuel =>
    exact suffixes_of_noArguments (settledAt_behind hfirst hwhole).noArguments fuel whole

end

/-- Where the parsers of the grammar leave a token stream. -/
structure ExpressionsStop (fuel : Nat) (s : TokenStream) : Prop where
  /-- Behind an atom there are no arguments. -/
  atom : (atom fuel).Yields s fun _ t => t.NoArguments
  /-- Operators are taken in until one binds too loosely, unless there are arguments at first. -/
  climb : ∀ left b,
    (∀ look t, s.peek = (.ok look, t) → look.any (·.isPunct .openParen) = false) →
    (climb fuel left b).Yields s fun _ t => t.SettledAt b
  /-- Behind an expression there are neither arguments nor an operator. -/
  expression : (expression fuel).Yields s fun _ t => ∃ look, t.peek = (.ok look, t) ∧
    look.any (·.isPunct .openParen) = false ∧ look.bind (connective? t.names) = none
  /-- The arguments that are looked for at the end of an expression are not there. -/
  final : ∀ first t whole u, Grammar.atom fuel s = .done first t →
    Grammar.climb fuel first 0 t = .done whole u → suffixes fuel whole u = .done whole u
  /-- So an expression is an atom with the operators and operands behind it, and nothing else. -/
  whole : Grammar.expression (fuel + 1) s = (do
    let first ← Grammar.atom fuel
    Grammar.climb fuel first 0) s

/-- In every state of a token stream, and with whatever fuel, an atom is read with all arguments
that follow, and an expression with all operators. -/
theorem stops_everywhere (fuel : Nat) (s : TokenStream) : ExpressionsStop fuel s where
  atom := yields_atom fuel s
  climb left b h := yields_climb fuel left b s h
  expression := by
    cases fuel with
    | zero =>
      rw [expression]
      exact Run.yields_outOfFuel
    | succ fuel =>
      rw [expression]
      refine Run.yields_bind fun first t hfirst => Run.yields_bind fun whole u hwhole => ?_
      intro tree v hdone
      rw [suffixes_behind hfirst hwhole] at hdone
      cases hdone
      obtain ⟨look, hpeek, hlook⟩ := settledAt_behind hfirst hwhole
      obtain ⟨hopen, hloose⟩ := settled_iff.mp hlook
      refine ⟨look, hpeek, hopen, Option.eq_none_iff_forall_ne_some.mpr fun c hc => ?_⟩
      exact Nat.not_lt.mpr (hloose c hc) (precedence_pos c)
  final first t whole u := suffixes_behind
  whole := by
    rw [expression, Run.bind_apply, Run.bind_apply]
    cases hfirst : Grammar.atom fuel s with
    | done first t =>
      dsimp only
      rw [Run.bind_apply]
      cases hwhole : Grammar.climb fuel first 0 t with
      | done whole u => exact suffixes_behind hfirst hwhole
      | failed e u => rfl
      | unfinished => rfl
    | failed e t => rfl
    | unfinished => rfl

/-- In `a = f(x)` the arguments belong to `f`: the whole is read before any are looked for. -/
theorem stops_everywhere_assignment :
    ∃ tree t, (do
        let first ← atom 13
        climb 13 first 0) (TokenStream.ofString "a = f(x)" .fresh) = .done tree t ∧
      tree.span = ⟨0, 8⟩ ∧ ∃ look, t.peek = (.ok look, t) ∧
        look.any (·.isPunct .openParen) = false ∧ look.bind (connective? t.names) = none := by
  have hspan : (match expression 14 (TokenStream.ofString "a = f(x)" .fresh) with
      | .done tree _ => some tree.span
      | _ => none) = some ⟨0, 8⟩ := by decide +kernel
  have hwhole := (stops_everywhere 13 (TokenStream.ofString "a = f(x)" .fresh)).whole
  have hbehind := (stops_everywhere 14 (TokenStream.ofString "a = f(x)" .fresh)).expression
  cases hdone : expression 14 (TokenStream.ofString "a = f(x)" .fresh) with
  | done tree t =>
    rw [hdone] at hspan
    exact ⟨tree, t, hwhole.symm.trans hdone, Option.some.inj hspan, hbehind tree t hdone⟩
  | failed e t =>
    rw [hdone] at hspan
    contradiction
  | unfinished =>
    rw [hdone] at hspan
    contradiction

end Grammar

end LambdaScript
