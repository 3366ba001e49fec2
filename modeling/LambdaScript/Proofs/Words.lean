import LambdaScript.Proofs.Alike
import LambdaScript.Proofs.Lexemes
/-!
# The words of a source

How a source is cut into tokens, where these stand, what they spell and what is wrong with it
depends on the source alone. Only the numbers of strings depend on the interner
(`Lexer.words_scan`).
-/

namespace LambdaScript

theorem Interner.spelling_intern {names : Interner} (h : names.Consistent) (s : String) :
    (names.intern s).2.spelling (names.intern s).1 = s := by
  rw [spelling, find?_intern h]
  rfl

/-- A token as it is spelled, with its span. -/
def Token.spoken (names : Interner) (t : Token) : Word × Span := (t.kind.word names, t.span)

/-- A token that is known is spelled alike by every later interner. -/
theorem Token.spoken_of_grows {names later : Interner} {t : Token} (h : t.kind.Known names)
    (hgrows : names.Grows later) : t.spoken later = t.spoken names := by
  rw [spoken, spoken, (h.alike hgrows).word_eq]

namespace Lexer

variable {names names' : Interner}

/-- What is read, with words in place of numbers, and what is left. -/
def heard {α β : Type} (word : Interner → α → β) (r : Except LexError α × Lexer) :
    Except LexError β × CharStream :=
  (r.1.map (word r.2.names), r.2.chars)

theorem heard_readKind (h : names.Consistent) (h' : names'.Consistent) (s : CharStream) (c : Char) :
    heard TokenKind.word (readKind ⟨s, names'⟩ c) =
      heard TokenKind.word (readKind ⟨s, names⟩ c) := by
  unfold readKind
  split
  · unfold readString
    dsimp only
    split
    · rfl
    · simp only [heard, Except.map, TokenKind.word, Interner.spelling_intern h,
        Interner.spelling_intern h']
  split
  · rfl
  split
  · unfold readWord
    dsimp only
    split
    · rfl
    · simp only [heard, Except.map, Prod.map, id, TokenKind.word, Interner.spelling_intern h,
        Interner.spelling_intern h']
  split
  · rfl
  split
  · simp only [readOperator, heard, Except.map, Prod.map, id, TokenKind.word,
      Interner.spelling_intern h, Interner.spelling_intern h']
  · rfl

theorem heard_read {l : Lexer} (h : l.names.Consistent) (h' : names'.Consistent) :
    heard (fun names => Option.map (Token.spoken names)) (read ⟨l.chars, names'⟩) =
      heard (fun names => Option.map (Token.spoken names)) l.read := by
  fun_induction read l with
  | case1 l chars hnil =>
    rw [read_eq]
    simp only [hnil, chars]
    rfl
  | case2 l chars tail hcons ih =>
    rw [read_eq]
    simp only [hcons, chars]
    exact ih h
  | case3 l chars c tail hcons hhash kind rest hkind =>
    have hheard := heard_readKind h h' chars c
    rw [hkind] at hheard
    rw [read_eq]
    simp only [hcons, chars, hhash, if_false]
    rcases hread : readKind ⟨(l.chars.eatWhile isBlank).2, names'⟩ c with ⟨e | kind', rest'⟩
    · rw [hread] at hheard
      cases hheard
    · rw [hread] at hheard
      simp only [heard, Except.map, Prod.mk.injEq, Except.ok.injEq] at hheard
      simp only [heard, Except.map, Option.map_some, Token.spoken, hheard]
  | case4 l chars c tail hcons hhash e rest hkind =>
    have hheard := heard_readKind h h' chars c
    rw [hkind] at hheard
    rw [read_eq]
    simp only [hcons, chars, hhash, if_false]
    rcases hread : readKind ⟨(l.chars.eatWhile isBlank).2, names'⟩ c with ⟨e' | kind', rest'⟩
    · rw [hread] at hheard
      simp only [heard, Except.map, Prod.mk.injEq, Except.error.injEq] at hheard
      simp only [heard, Except.map, hheard]
    · rw [hread] at hheard
      cases hheard

/-- Two lexers read words of which one is as good as the other, or meet the same error. -/
theorem heard_cases {α β : Type} {word : Interner → α → β} {r r' : Except LexError α × Lexer}
    (h : heard word r' = heard word r) : r'.2.chars = r.2.chars ∧
      ((∃ e, r.1 = .error e ∧ r'.1 = .error e) ∨
        ∃ a a', r.1 = .ok a ∧ r'.1 = .ok a' ∧ word r'.2.names a' = word r.2.names a) := by
  obtain ⟨e | a, l⟩ := r <;> obtain ⟨e' | a', l'⟩ := r' <;>
    simp only [heard, Except.map, Prod.mk.injEq, Except.error.injEq, Except.ok.injEq, reduceCtorEq,
      false_and] at h
  · exact ⟨h.2, .inl ⟨e, rfl, by rw [h.1]⟩⟩
  · exact ⟨h.2, .inr ⟨a, a', rfl, rfl, h.1⟩⟩

/-- The tokens of a source are spelled alike under every interner, and end alike. -/
theorem words_scan {l : Lexer} (h : l.names.Consistent) (h' : names'.Consistent) :
    (scan ⟨l.chars, names'⟩).ending = l.scan.ending ∧
      (scan ⟨l.chars, names'⟩).tokens.map (Token.spoken (scan ⟨l.chars, names'⟩).names) =
        l.scan.tokens.map (Token.spoken l.scan.names) := by
  induction l using scan.induct generalizing names' with
  | case1 l t rest hread ih =>
    have hnumbers := numbers_read h
    have hnumbers' := numbers_read (l := ⟨l.chars, names'⟩) h'
    have hheard := heard_read h h'
    rw [hread] at hheard hnumbers
    rcases hread' : read ⟨l.chars, names'⟩ with ⟨result, rest'⟩
    rw [hread'] at hheard hnumbers'
    obtain ⟨hchars, ⟨e, ⟨⟩, -⟩ | ⟨_, found, ⟨⟩, ha', hword⟩⟩ := heard_cases hheard
    cases found with
    | none => cases hword
    | some t' =>
      obtain rfl : result = .ok (some t') := ha'
      have hspoken : t'.spoken rest'.names = t.spoken rest.names := Option.some.inj hword
      have hbehind : (⟨rest.chars, rest'.names⟩ : Lexer) = rest' := by rw [← hchars]
      obtain ⟨hending, htokens⟩ := ih hnumbers.consistent hnumbers'.consistent
      -- both are known when they are read, so that the later interners spell them alike
      have hfirst : t'.spoken rest'.scan.names = t.spoken rest.scan.names := by
        rw [Token.spoken_of_grows (hnumbers'.known _ rfl) (numbers_scan hnumbers'.consistent).2.1,
          Token.spoken_of_grows (hnumbers.known _ rfl) (numbers_scan hnumbers.consistent).2.1,
          hspoken]
      rw [hbehind] at hending htokens
      rw [scan_of_token hread, scan_of_token hread']
      exact ⟨hending, by rw [List.map_cons, List.map_cons, hfirst, htokens]⟩
  | case2 l rest hread =>
    have hheard := heard_read h h'
    rw [hread] at hheard
    rcases hread' : read ⟨l.chars, names'⟩ with ⟨result, rest'⟩
    rw [hread'] at hheard
    obtain ⟨hchars, ⟨e, ⟨⟩, -⟩ | ⟨_, found, ⟨⟩, ha', hword⟩⟩ := heard_cases hheard
    cases found with
    | some t' => cases hword
    | none =>
      obtain rfl : result = .ok none := ha'
      rw [scan_of_end hread, scan_of_end hread', show rest'.chars = rest.chars from hchars]
      exact ⟨rfl, rfl⟩
  | case3 l e rest hread =>
    have hheard := heard_read h h'
    rw [hread] at hheard
    rcases hread' : read ⟨l.chars, names'⟩ with ⟨result, rest'⟩
    rw [hread'] at hheard
    obtain ⟨-, ⟨_, ⟨⟩, he'⟩ | ⟨_, _, ⟨⟩, -, -⟩⟩ := heard_cases hheard
    obtain rfl : result = .error e := he'
    rw [scan_of_error hread, scan_of_error hread']
    exact ⟨rfl, rfl⟩

end Lexer
end LambdaScript
