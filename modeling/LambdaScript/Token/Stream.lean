import LambdaScript.Token.Lexer
/-!
# Tokens on demand

A `TokenStream` reads one token ahead at most: `peek` reads the next token and keeps it, `next`
hands out the kept token or else reads one. That the source is used up is kept like a token.

`TokenSource` says what a grammar needs of its input: the next token, looked at or taken, the offset
reached, the interner, and a `size` that falls with every token taken. A token stream is one such
source, a list of tokens another (`TokenList`); a grammar over any source can be run on both.
-/

namespace LambdaScript

/-- A lexer and the token read ahead, if one is: `some none` is the end of the source. -/
structure TokenStream where
  lexer : Lexer
  peeked : Option (Option Token)
deriving Inhabited

namespace TokenStream

/-- The tokens that follow in a character stream. -/
def ofChars (chars : CharStream) (names : Interner) : TokenStream := ⟨⟨chars, names⟩, none⟩

/-- The tokens of a source. -/
def ofString (source : String) (names : Interner) : TokenStream :=
  ofChars (.ofString source) names

/-- The next token, left in the stream; none at the end of the source. -/
def peek (s : TokenStream) : Except LexError (Option Token) × TokenStream :=
  match s.peeked with
  | some token => (.ok token, s)
  | none =>
    match s.lexer.read with
    | (.ok token, lexer) => (.ok token, ⟨lexer, some token⟩)
    | (.error e, lexer) => (.error e, ⟨lexer, none⟩)

/-- The next token and the stream behind it; none at the end of the source. -/
def next (s : TokenStream) : Except LexError (Option Token) × TokenStream :=
  match s.peeked with
  | some token => (.ok token, ⟨s.lexer, none⟩)
  | none =>
    let (token, lexer) := s.lexer.read
    (token, ⟨lexer, none⟩)

/-- There is no further token. -/
def atEnd (s : TokenStream) : Except LexError Bool × TokenStream :=
  let (token, s) := s.peek
  (token.map Option.isNone, s)

/-- Byte offset behind the last character read. -/
def offset (s : TokenStream) : Nat := s.lexer.chars.offset

/-- The strings numbered so far. -/
def names (s : TokenStream) : Interner := s.lexer.names

/-- Characters still to be read, and one for a token read ahead. -/
def size (s : TokenStream) : Nat :=
  s.lexer.chars.rest.length + match s.peeked with
    | some (some _) => 1
    | _ => 0

end TokenStream

/-- What a grammar needs of its input. -/
class TokenSource (σ : Type) where
  /-- The next token, left in the source. -/
  peek : σ → Except LexError (Option Token) × σ
  /-- The next token and the source behind it. -/
  next : σ → Except LexError (Option Token) × σ
  /-- Byte offset behind the last character read. -/
  offset : σ → Nat
  /-- The interner that numbers the tokens' strings. -/
  names : σ → Interner
  /-- A bound for the number of tokens left. -/
  size : σ → Nat
  /-- Looking at a token does not raise the bound. -/
  size_peek_le (s : σ) : size (peek s).2 ≤ size s
  /-- A token looked at is the one taken next, and taking it lowers the bound. -/
  next_peek (s : σ) (t : Token) (h : (peek s).1 = .ok (some t)) :
    (next (peek s).2).1 = .ok (some t) ∧ size (next (peek s).2).2 < size s

namespace TokenStream

theorem size_peek_le (s : TokenStream) : s.peek.2.size ≤ s.size := by
  have hle := Lexer.length_rest_read_le s.lexer
  unfold peek
  split
  · exact Nat.le_refl _
  · next hnone =>
    split
    · next token lexer hread =>
      rw [hread] at hle
      simp only at hle
      cases token with
      | none => simp [size, hnone, hle]
      | some t =>
        have := Lexer.length_rest_read_lt hread
        simp only [size, hnone]
        omega
    · next e lexer hread =>
      rw [hread] at hle
      simpa [size, hnone] using hle

theorem next_peek (s : TokenStream) (t : Token) (h : s.peek.1 = .ok (some t)) :
    s.peek.2.next.1 = .ok (some t) ∧ s.peek.2.next.2.size < s.size := by
  unfold peek at h ⊢
  split at h
  · next token hsome =>
    simp only [Except.ok.injEq] at h
    subst h
    simp [hsome, next, size]
  · next hnone =>
    split at h
    · next token lexer hread =>
      simp only [Except.ok.injEq] at h
      subst h
      have := Lexer.length_rest_read_lt hread
      simp [hnone, next, size, this]
    · simp at h

instance : TokenSource TokenStream where
  peek := peek
  next := next
  offset := offset
  names := names
  size := size
  size_peek_le := size_peek_le
  next_peek := next_peek

end TokenStream

/-- A list of tokens, how it ends (at an offset, or in a failure), and the interner behind it. -/
structure TokenList where
  tokens : List Token
  ending : Except LexError Nat
  names : Interner

namespace TokenList

/-- The first token, left in the list. -/
def peek (l : TokenList) : Except LexError (Option Token) × TokenList :=
  match l.tokens, l.ending with
  | t :: _, _ => (.ok (some t), l)
  | [], .ok _ => (.ok none, l)
  | [], .error e => (.error e, l)

/-- The first token and the list behind it. -/
def next (l : TokenList) : Except LexError (Option Token) × TokenList :=
  ((peek l).1, { l with tokens := l.tokens.tail })

instance : TokenSource TokenList where
  peek := peek
  next := next
  offset l := l.ending.toOption.getD 0
  names l := l.names
  size l := l.tokens.length
  size_peek_le l := by unfold peek; split <;> exact Nat.le_refl _
  next_peek l t h := by
    unfold peek at h ⊢
    split at h <;> simp_all [next, peek]

end TokenList

end LambdaScript
