import LambdaScript.Proofs.Presents
/-!
# The tokens of a source

`Lexer.scan` reads all the tokens that a lexer yields, and how they end: at the end of the source,
or in an error. A `TokenStream` presents exactly these tokens (`TokenStream.presents`), and so does
the lexer that reads everything first (`Lexer.tokens_eq_scan`). The names in the tokens are spelled
alike by every later interner.
-/

namespace LambdaScript

/-- What a token holds is a string that the interner knows. -/
def TokenKind.Known (names : Interner) (kind : TokenKind) : Prop :=
  ∀ n, kind.name? = some n → (names.find? n).isSome

theorem TokenKind.Known.alike {names later : Interner} {kind : TokenKind} (h : kind.Known names)
    (hgrows : names.Grows later) : SpelledAlike names later kind :=
  fun n hn => hgrows.spelling_eq (h n hn)

theorem TokenKind.Known.grows {names later : Interner} {kind : TokenKind} (h : kind.Known names)
    (hgrows : names.Grows later) : kind.Known later :=
  fun n hn => hgrows.isSome (h n hn)

namespace Lexer

/-- The tokens of a lexer, how they end, and the interner behind them. -/
def scan (l : Lexer) : TokenList :=
  match _h : l.read with
  | (.ok (some t), rest) =>
    let more := scan rest
    ⟨t :: more.tokens, more.ending, more.names⟩
  | (.ok none, rest) => ⟨[], .ok rest.chars.offset, rest.names⟩
  | (.error e, rest) => ⟨[], .error e, rest.names⟩
termination_by l.chars.rest.length
decreasing_by exact length_rest_read_lt _h

theorem scan_of_token {l rest : Lexer} {t : Token} (h : l.read = (.ok (some t), rest)) :
    l.scan = ⟨t :: rest.scan.tokens, rest.scan.ending, rest.scan.names⟩ := by
  rw [scan]
  split <;> simp_all

theorem scan_of_end {l rest : Lexer} (h : l.read = (.ok none, rest)) :
    l.scan = ⟨[], .ok rest.chars.offset, rest.names⟩ := by
  rw [scan]
  split <;> simp_all

theorem scan_of_error {l rest : Lexer} {e : LexError} (h : l.read = (.error e, rest)) :
    l.scan = ⟨[], .error e, rest.names⟩ := by
  rw [scan]
  split <;> simp_all

/-- Reading all tokens first gives what `scan` gives. -/
theorem collect_eq_scan (l : Lexer) (before : List Token) :
    (l.collect before).1 = l.scan.ending.map (fun _ => before.reverse ++ l.scan.tokens) ∧
      (l.collect before).2.names = l.scan.names := by
  fun_induction collect l before with
  | case1 l before t rest hread ih =>
    rw [scan_of_token hread]
    simpa using ih
  | case2 l before rest hread =>
    rw [scan_of_end hread]
    simp [Except.map]
  | case3 l before e rest hread =>
    rw [scan_of_error hread]
    exact ⟨rfl, rfl⟩

theorem tokens_eq_scan (l : Lexer) :
    l.tokens.1 = l.scan.ending.map (fun _ => l.scan.tokens) ∧ l.tokens.2.names = l.scan.names :=
  collect_eq_scan l []

/-! ## Names -/

/-- The later interner keeps what the first one holds, and knows the string of the token that was
read in between. -/
structure Numbers (names : Interner) (kind : Option TokenKind) (later : Interner) : Prop where
  consistent : later.Consistent
  grows : names.Grows later
  known : ∀ k, kind = some k → k.Known later

theorem numbers_intern {names : Interner} (h : names.Consistent) (s : String)
    (kind : Name → TokenKind) (hkind : ∀ n, (kind n).name? = some n) :
    Numbers names (some (kind (names.intern s).1)) (names.intern s).2 := by
  refine ⟨Interner.consistent_intern h s, Interner.grows_intern names s, ?_⟩
  rintro k hk n hn
  cases hk
  rw [hkind] at hn
  cases hn
  rw [Interner.find?_intern h s]
  rfl

theorem numbers_same {names : Interner} (h : names.Consistent) {kind : Option TokenKind}
    (hkind : ∀ k, kind = some k → k.name? = none) : Numbers names kind names := by
  refine ⟨h, Interner.Grows.refl names, fun k hk n hn => ?_⟩
  rw [hkind k hk] at hn
  contradiction

theorem numbers_readKind {l : Lexer} (h : l.names.Consistent) (c : Char) :
    Numbers l.names (l.readKind c).1.toOption (l.readKind c).2.names := by
  unfold readKind
  split
  · unfold readString
    split
    next contents chars _ =>
    split
    · exact numbers_same h (by intro k hk; cases hk)
    · exact numbers_intern h _ .string fun _ => rfl
  split
  · refine numbers_same h fun k hk => ?_
    cases hk
    rfl
  split
  · unfold readWord
    split
    next run chars _ =>
    dsimp only
    split
    · refine numbers_same h fun k hk => ?_
      cases hk
      rfl
    · exact numbers_intern h _ .identifier fun _ => rfl
  split
  · refine numbers_same h fun k hk => ?_
    cases hk
    rfl
  split
  · exact numbers_intern h _ .operator fun _ => rfl
  · exact numbers_same h (by intro k hk; cases hk)

theorem numbers_read {l : Lexer} (h : l.names.Consistent) :
    Numbers l.names (l.read.1.toOption.join.map Token.kind) l.read.2.names := by
  fun_induction read l with
  | case1 l chars hnil => exact numbers_same h (by intro k hk; cases hk)
  | case2 l chars tail hcons ih => exact ih h
  | case3 l chars c tail hcons hhash kind rest hkind =>
    have hnumbers := numbers_readKind (l := ⟨chars, l.names⟩) h c
    rw [hkind] at hnumbers
    exact hnumbers
  | case4 l chars c tail hcons hhash e rest hkind =>
    have hnumbers := numbers_readKind (l := ⟨chars, l.names⟩) h c
    rw [hkind] at hnumbers
    exact hnumbers

/-- The interner behind all tokens holds what the first interner held, and knows every token. -/
theorem numbers_scan {l : Lexer} (h : l.names.Consistent) :
    l.scan.names.Consistent ∧ l.names.Grows l.scan.names ∧
      ∀ t ∈ l.scan.tokens, t.kind.Known l.scan.names := by
  fun_induction scan l with
  | case1 l t rest hread more ih =>
    have hnumbers := numbers_read h
    rw [hread] at hnumbers
    obtain ⟨hconsistent, hgrows, hknown⟩ := ih hnumbers.consistent
    refine ⟨hconsistent, hnumbers.grows.trans hgrows, fun u hu => ?_⟩
    rcases List.mem_cons.mp hu with rfl | hu
    · exact (hnumbers.known _ rfl).grows hgrows
    · exact hknown u hu
  | case2 l rest hread =>
    have hnumbers := numbers_read h
    rw [hread] at hnumbers
    exact ⟨hnumbers.consistent, hnumbers.grows, List.forall_mem_nil _⟩
  | case3 l e rest hread =>
    have hnumbers := numbers_read h
    rw [hread] at hnumbers
    exact ⟨hnumbers.consistent, hnumbers.grows, List.forall_mem_nil _⟩

end Lexer

/-- A token stream presents the tokens of its lexer. -/
theorem TokenStream.presents {l : Lexer} (h : l.names.Consistent) :
    Presents l.scan.names l.scan.ending (⟨l, none⟩ : TokenStream) l.scan.tokens := by
  fun_induction Lexer.scan l with
  | case1 l t rest hread more ih =>
    have hnumbers := Lexer.numbers_read h
    rw [hread] at hnumbers
    have hknown : t.kind.Known rest.names := hnumbers.known _ rfl
    have hgrows := (Lexer.numbers_scan hnumbers.consistent).2.1
    have hpeek : TokenSource.peek (⟨l, none⟩ : TokenStream) =
        (.ok (some t), ⟨rest, some (some t)⟩) := by
      simp only [TokenSource.peek, TokenStream.peek, hread]
    exact .token hpeek rfl rfl (hknown.alike hgrows) (ih hnumbers.consistent)
  | case2 l rest hread =>
    have hpeek : TokenSource.peek (⟨l, none⟩ : TokenStream) = (.ok none, ⟨rest, some none⟩) := by
      simp only [TokenSource.peek, TokenStream.peek, hread]
    exact .stop hpeek rfl rfl rfl
  | case3 l e rest hread =>
    have hpeek : TokenSource.peek (⟨l, none⟩ : TokenStream) = (.error e, ⟨rest, none⟩) := by
      simp only [TokenSource.peek, TokenStream.peek, hread]
    exact .broken hpeek rfl

/-- The tokens of a source, how they end, and the interner behind them. -/
def scanSource (source : String) (names : Interner) : TokenList :=
  Lexer.scan ⟨.ofString source, names⟩

section
variable {source : String} {names : Interner} (h : names.Consistent)
include h

theorem consistent_scanSource : (scanSource source names).names.Consistent :=
  (Lexer.numbers_scan (l := ⟨.ofString source, names⟩) h).1

theorem known_of_mem_scanSource {t : Token} (ht : t ∈ (scanSource source names).tokens) :
    t.kind.Known (scanSource source names).names :=
  (Lexer.numbers_scan (l := ⟨.ofString source, names⟩) h).2.2 t ht

end

theorem lex_eq_scan (source : String) (names : Interner) :
    lex source names = ((scanSource source names).ending.map fun _ =>
      (scanSource source names).tokens, (scanSource source names).names) := by
  obtain ⟨htokens, hnames⟩ := Lexer.tokens_eq_scan ⟨.ofString source, names⟩
  rw [scanSource, ← htokens, ← hnames]
  rfl

/-- A source can be cut into tokens exactly if scanning it ends at its end. -/
theorem lex_eq_ok_iff {source : String} {names names' : Interner} {tokens : List Token} :
    lex source names = (.ok tokens, names') ↔
      ∃ offset, scanSource source names = ⟨tokens, .ok offset, names'⟩ := by
  rw [lex_eq_scan]
  obtain ⟨found, ending, later⟩ := scanSource source names
  cases ending with
  | error e => simp [Except.map]
  | ok offset => simp [Except.map]

theorem ending_of_lex_error {source : String} {names : Interner} {e : LexError}
    (h : (lex source names).1 = .error e) : (scanSource source names).ending = .error e := by
  rw [lex_eq_scan] at h
  dsimp only at h
  cases hending : (scanSource source names).ending with
  | ok offset =>
    rw [hending] at h
    cases h
  | error e' =>
    rw [hending] at h
    cases h
    rfl

/-- A result that can be checked by evaluation. -/
theorem exists_eq_ok {ε α β : Type} {r : Except ε α × β} (h : r.1.toOption.isSome = true) :
    ∃ a b, r = (.ok a, b) := by
  obtain ⟨a, b⟩ := r
  cases a with
  | ok a => exact ⟨a, b, rfl⟩
  | error e => contradiction

end LambdaScript
