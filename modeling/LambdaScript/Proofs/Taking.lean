import LambdaScript.Proofs.Pushdown
import LambdaScript.Proofs.Transparency
/-!
# The tokens that are left

A token stream is at every moment in front of a list of tokens, `TokenStream.left`: the one that it
holds, if it holds one, and those that its lexer will cut. Looking at the next token leaves that
list as it is, and taking a token takes its head away (`TokenStream.left_peek`,
`TokenStream.left_next`). This is so in any state, also behind an error.

`Run.Yields` says what holds of a value and of the state behind it if a computation yields one; the
steps of a parser are described in these terms.
-/

namespace LambdaScript

namespace Run

variable {ε σ α β : Type}

/-- If the computation yields a value on `s`, then `Q` holds of it and of the state behind it. -/
def Yields (x : Run ε σ α) (s : σ) (Q : α → σ → Prop) : Prop := ∀ a t, x s = .done a t → Q a t

variable {x : Run ε σ α} {s : σ}

theorem bind_of_done {f : α → Run ε σ β} {a : α} {t : σ} (h : x s = .done a t) :
    (x >>= f) s = f a t := by rw [bind_apply, h]

theorem bind_of_failed {f : α → Run ε σ β} {e : ε} {t : σ} (h : x s = .failed e t) :
    (x >>= f) s = .failed e t := by rw [bind_apply, h]

theorem bind_of_unfinished {f : α → Run ε σ β} (h : x s = .unfinished) :
    (x >>= f) s = .unfinished := by rw [bind_apply, h]

theorem Yields.imp {P Q : α → σ → Prop} (h : x.Yields s P) (himp : ∀ a t, P a t → Q a t) :
    x.Yields s Q := fun a t hx => himp a t (h a t hx)

theorem yields_pure {a : α} {Q : α → σ → Prop} (h : Q a s) :
    (pure a : Run ε σ α).Yields s Q := by
  intro b t hb
  cases hb
  exact h

theorem yields_outOfFuel {Q : α → σ → Prop} : (outOfFuel : Run ε σ α).Yields s Q :=
  fun _ _ h => nomatch h

theorem yields_bind {f : α → Run ε σ β} {Q : β → σ → Prop}
    (h : x.Yields s fun a t => (f a).Yields t Q) : (x >>= f).Yields s Q := by
  intro b u hb
  rw [bind_apply] at hb
  cases hx : x s with
  | done a t =>
    rw [hx] at hb
    exact h a t hx b u hb
  | failed e t =>
    rw [hx] at hb
    cases hb
  | unfinished =>
    rw [hx] at hb
    cases hb

end Run

/-- The token that is read is the first of those that are cut. Behind an error there are none. -/
theorem Lexer.tokens_scan_eq (l : Lexer) :
    l.scan.tokens = l.read.1.toOption.join.toList ++ l.read.2.scan.tokens := by
  rcases hread : l.read with ⟨e | _ | token, m⟩
  · rw [scan_of_error hread]
    rcases read_error hread with ⟨-, -, hagain⟩ | ⟨-, hrest⟩
    · rw [scan_of_error hagain]
      rfl
    · rw [scan_of_end (read_of_rest_eq_nil hrest)]
      rfl
  · rw [scan_of_end hread, scan_of_end (read_of_rest_eq_nil (rest_of_read_none hread))]
    rfl
  · rw [scan_of_token hread]
    rfl

namespace TokenStream

variable {s t : TokenStream} {look : Option Token}

/-- The tokens that have still to be handed out. -/
def left (s : TokenStream) : List Token := s.peeked.join.toList ++ s.lexer.scan.tokens

theorem left_ofString (source : String) (names : Interner) :
    (ofString source names).left = (scanSource source names).tokens := rfl

/-- A stream that has been looked at shows its token again. -/
theorem peek_of_peeked (h : s.peeked = some look) : s.peek = (.ok look, s) := by
  unfold peek
  rw [h]

theorem next_of_peeked (h : s.peeked = some look) : s.next = (.ok look, ⟨s.lexer, none⟩) := by
  unfold next
  rw [h]

/-- A token that is shown is held from then on. -/
theorem peeked_of_peek_eq (h : s.peek = (.ok look, t)) : t.peeked = some look := by
  unfold peek at h
  split at h
  · next token hpeeked =>
    cases h
    exact hpeeked
  · split at h
    · cases h
      rfl
    · cases h

theorem peek_peek (h : s.peek = (.ok look, t)) : t.peek = (.ok look, t) :=
  peek_of_peeked (peeked_of_peek_eq h)

theorem left_peek (s : TokenStream) : s.peek.2.left = s.left := by
  unfold peek
  split
  · rfl
  · next hpeeked =>
    have htokens := s.lexer.tokens_scan_eq
    split
    all_goals
      next hread =>
      rw [hread] at htokens
      rw [left, left, hpeeked, htokens]
      rfl

theorem left_next (s : TokenStream) : s.left = s.next.1.toOption.join.toList ++ s.next.2.left := by
  unfold next
  split
  · next token hpeeked =>
    rw [left, left, hpeeked]
    rfl
  · next hpeeked =>
    rw [left, hpeeked, s.lexer.tokens_scan_eq]
    rfl

end TokenStream

namespace Parser

open TokenStream

variable {s t : TokenStream} {look : Option Token}

theorem peek_of_ok (h : s.peek = (.ok look, t)) :
    (peek : Parser TokenStream _) s = .done look t := by
  show Run.mapError _ (Run.ofStep TokenStream.peek) s = _
  rw [Run.mapError, Run.ofStep, h]

theorem peek_of_error {e : LexError} (h : s.peek = (.error e, t)) :
    (peek : Parser TokenStream _) s = .failed (.lexical e) t := by
  show Run.mapError _ (Run.ofStep TokenStream.peek) s = _
  rw [Run.mapError, Run.ofStep, h]

theorem advance_of_ok (h : s.next = (.ok look, t)) :
    (advance : Parser TokenStream _) s = .done look t := by
  show Run.mapError _ (Run.ofStep TokenStream.next) s = _
  rw [Run.mapError, Run.ofStep, h]

theorem nextIsPunct_of_ok (h : s.peek = (.ok look, t)) (p : Punct) :
    (nextIsPunct p : Parser TokenStream _) s = .done (look.any (·.isPunct p)) t := by
  rw [nextIsPunct, Run.bind_of_done (peek_of_ok h)]
  rfl

theorem yields_peek {Q : Option Token → TokenStream → Prop}
    (h : ∀ look t, s.peek = (.ok look, t) → t.peeked = some look → t.left = s.left → Q look t) :
    (peek : Parser TokenStream _).Yields s Q := by
  intro look t hdone
  have hleft := s.left_peek
  rcases hpeek : s.peek with ⟨e | shown, u⟩
  · rw [peek_of_error hpeek] at hdone
    cases hdone
  · rw [peek_of_ok hpeek] at hdone
    rw [hpeek] at hleft
    cases hdone
    exact h look t hpeek (peeked_of_peek_eq hpeek) hleft

/-- A token that has been looked at is taken. -/
theorem yields_advance {Q : Option Token → TokenStream → Prop} (hpeeked : s.peeked = some look)
    (h : ∀ t, s.left = look.toList ++ t.left → Q look t) :
    (advance : Parser TokenStream _).Yields s Q := by
  intro taken t hdone
  have hleft := s.left_next
  rw [advance_of_ok (next_of_peeked hpeeked)] at hdone
  rw [next_of_peeked hpeeked] at hleft
  cases hdone
  exact h _ hleft

theorem yields_nextIsPunct {p : Punct} {Q : Bool → TokenStream → Prop}
    (h : ∀ look t, s.peek = (.ok look, t) → t.peeked = some look → t.left = s.left →
      Q (look.any (·.isPunct p)) t) : (nextIsPunct p : Parser TokenStream _).Yields s Q :=
  Run.yields_bind (yields_peek fun look t hpeek hpeeked hleft =>
    Run.yields_pure (h look t hpeek hpeeked hleft))

theorem yields_nextIsKeyword {k : Keyword} {Q : Bool → TokenStream → Prop}
    (h : ∀ look t, s.peek = (.ok look, t) → t.peeked = some look → t.left = s.left →
      Q (look.any (·.isKeyword k)) t) : (nextIsKeyword k : Parser TokenStream _).Yields s Q :=
  Run.yields_bind (yields_peek fun look t hpeek hpeeked hleft =>
    Run.yields_pure (h look t hpeek hpeeked hleft))

theorem yields_atEnd {Q : Bool → TokenStream → Prop} (h : ∀ ended t, t.left = s.left → Q ended t) :
    (atEnd : Parser TokenStream _).Yields s Q :=
  Run.yields_bind (yields_peek fun _ t _ _ hleft => Run.yields_pure (h _ t hleft))

theorem yields_failExpected {α : Type} {Q : α → TokenStream → Prop} (expected : String)
    (found : Option Token) : (failExpected expected found : Parser TokenStream α).Yields s Q := by
  cases found <;> exact fun _ _ h => nomatch h

/-- What is expected is a token, and it is taken. -/
theorem yields_expect {test : Token → Bool} {expected : String} {Q : Span → TokenStream → Prop}
    (h : ∀ span t, t.left.length < s.left.length → Q span t) :
    (expect test expected : Parser TokenStream _).Yields s Q := by
  refine Run.yields_bind (yields_peek fun look t _ hpeeked hleft => ?_)
  cases look with
  | none => exact yields_failExpected expected none
  | some token =>
    dsimp only
    split
    · refine Run.yields_bind (yields_advance hpeeked fun u hu => Run.yields_pure (h _ u ?_))
      rw [← hleft, hu]
      exact Nat.lt_succ_self _
    · exact yields_failExpected expected (some token)

theorem yields_expectPunct {p : Punct} {Q : Span → TokenStream → Prop}
    (h : ∀ span t, t.left.length < s.left.length → Q span t) :
    (expectPunct p : Parser TokenStream _).Yields s Q := yields_expect h

theorem yields_expectKeyword {k : Keyword} {Q : Span → TokenStream → Prop}
    (h : ∀ span t, t.left.length < s.left.length → Q span t) :
    (expectKeyword k : Parser TokenStream _).Yields s Q := yields_expect h

end Parser

namespace Grammar

open TokenStream LambdaScript.Parser

variable {s : TokenStream}

theorem yields_nextConnective {Q : Option Connective → TokenStream → Prop}
    (h : ∀ look t, s.peek = (.ok look, t) → t.peeked = some look → t.left = s.left →
      Q (look.bind (connective? t.names)) t) :
    (nextConnective : Parser TokenStream _).Yields s Q := by
  refine Run.yields_bind (yields_peek fun look t hpeek hpeeked hleft => ?_)
  have hQ := h look t hpeek hpeeked hleft
  rcases look with _ | ⟨kind, span⟩
  · exact Run.yields_pure hQ
  · cases kind with
    | operator name => exact fun c u hc => Run.yields_pure hQ c u hc
    | _ => exact Run.yields_pure hQ

theorem yields_combine {c : Connective} {left right : Tree} {Q : Tree → TokenStream → Prop}
    (h : ∀ whole, Q whole s) : (combine c left right : Parser TokenStream _).Yields s Q := by
  unfold combine
  split
  · exact Run.yields_pure (h _)
  · exact Run.yields_pure (h _)
  · exact fun _ _ hfail => nomatch hfail

/-- A parameter is a token. -/
theorem yields_parameter {Q : Name → TokenStream → Prop}
    (h : ∀ name t, t.left.length < s.left.length → Q name t) :
    (parameter : Parser TokenStream _).Yields s Q := by
  refine Run.yields_bind (yields_peek fun look t _ hpeeked hleft => ?_)
  rcases look with _ | ⟨kind, span⟩
  · exact fun _ _ hfail => nomatch hfail
  · cases kind with
    | identifier name =>
      refine Run.yields_bind (yields_advance hpeeked fun u hu => Run.yields_pure (h _ u ?_))
      rw [← hleft, hu]
      exact Nat.lt_succ_self _
    | _ => exact fun _ _ hfail => nomatch hfail

end Grammar

end LambdaScript
