import LambdaScript.Proofs.JoinedSources
/-!
# Other layout between the same lexemes

That lexemes are `LaidOut` in a text tells nothing of the layout between them. Sources in which the
same lexemes are laid out have tokens of the same kinds, with their strings numbered alike
(`kinds_eq_of_texts`), and between lexemes any other layout may stand, as long as there is some
(`LaidOut.spread`).
-/

namespace LambdaScript

/-! ## Lexemes in a text -/

/-- A text, the lexemes that stand in it, and the tokens that these spell. Unlike a `Partition`,
this does not tell where the lexemes stand, so that it applies to texts of any length. -/
inductive LaidOut (names : Interner) : List Char → List (List Char) → List TokenKind → Prop where
  | last {text : List Char} (h : Layout True text) : LaidOut names text [] []
  | token {gap lexeme rest : List Char} {kind : TokenKind} {lexemes : List (List Char)}
      {kinds : List TokenKind} (hgap : Layout False gap) (hlexeme : kind.SpelledBy names lexeme)
      (hnext : ∀ c, rest.head? = some c → kind.Continues c = false)
      (h : LaidOut names rest lexemes kinds) :
      LaidOut names (gap ++ (lexeme ++ rest)) (lexeme :: lexemes) (kind :: kinds)

/-- The texts that tokens take of a source. -/
def tokenTexts (source : String) (tokens : List Token) : List (Option (List Char)) :=
  tokens.map fun t => slice? source.toList t.span.start t.span.stop

namespace Lexer

/-- A text without errors is layout and lexemes, and its tokens are those that the lexemes spell. -/
theorem exists_laidOut {l : Lexer} {offset : Nat} (hnames : l.names.Consistent)
    (hending : l.scan.ending = .ok offset) :
    ∃ lexemes, LaidOut l.scan.names l.chars.rest lexemes (l.scan.tokens.map Token.kind) := by
  fun_induction scan l with
  | case1 l t m hread more ih =>
    obtain ⟨gap, rest, hsource, hgap, hmeets⟩ := exists_meets hnames
    have hnumbers := numbers_read hnames
    rw [hread] at hmeets hnumbers
    generalize l.chars.position.afterAll gap = p at hmeets
    cases hmeets with
    | token hlexeme hnext =>
      obtain ⟨lexemes, hlaid⟩ := ih hnumbers.consistent hending
      have hgrows := (numbers_scan hnumbers.consistent).2.1
      rw [hsource]
      exact ⟨_, .token hgap (hlexeme.grows hgrows) hnext hlaid⟩
  | case2 l m hread =>
    obtain ⟨gap, rest, hsource, hgap, hmeets⟩ := exists_meets hnames
    rw [hread] at hmeets
    rw [hsource]
    cases hmeets with
    | stop h => exact ⟨[], .last (hgap.append h)⟩
  | case3 l e m hread => contradiction

end Lexer

/-- A lexeme spells one word. -/
theorem TokenKind.SpelledBy.word_eq {names names' : Interner} {kind kind' : TokenKind}
    {lexeme : List Char} (h : kind.SpelledBy names lexeme) (h' : kind'.SpelledBy names' lexeme)
    (hnames : names.Consistent) (hnames' : names'.Consistent) :
    kind'.word names' = kind.word names := by
  have hnext : ∀ {kind : TokenKind} (c : Char), ([] : List Char).head? = some c →
      kind.Continues c = false := fun _ hc => nomatch hc
  obtain ⟨c, tail, rfl, -, -, hread⟩ := Lexer.readKind_lexeme hnames h hnext .start
  obtain ⟨_, _, heq, -, -, hread'⟩ := Lexer.readKind_lexeme hnames' h' hnext .start
  obtain ⟨rfl, -⟩ := List.cons.inj heq
  have hheard := Lexer.heard_readKind hnames hnames' ⟨c :: tail ++ [], .start⟩ c
  rw [hread, hread'] at hheard
  exact Except.ok.inj (Prod.mk.inj hheard).1

namespace LaidOut

variable {names names' : Interner} {text text' : List Char} {lexemes : List (List Char)}
  {kinds kinds' : List TokenKind}

/-- Lexemes spell one list of words. -/
theorem words_eq (h : LaidOut names text lexemes kinds) (h' : LaidOut names' text' lexemes kinds')
    (hnames : names.Consistent) (hnames' : names'.Consistent) :
    kinds'.map (TokenKind.word names') = kinds.map (TokenKind.word names) := by
  induction h generalizing text' kinds' with
  | last => cases h' with | last => rfl
  | token hgap hlexeme hnext _ ih =>
    cases h' with
    | token hgap' hlexeme' hnext' h' =>
      rw [List.map_cons, List.map_cons, hlexeme.word_eq hlexeme' hnames hnames', ih h']

/-- A text is read as the tokens that its lexemes spell, each with the span of its lexeme. The
strings in them must be numbered already. -/
theorem scan_eq (h : LaidOut names text lexemes kinds) (hnames : names.Consistent)
    (before : List Char) {p : Position} (hp : p.bytes = byteCount before) :
    ∃ tokens ending, Lexer.scan ⟨⟨text, p⟩, names⟩ = ⟨tokens, .ok ending, names⟩ ∧
      tokens.map Token.kind = kinds ∧
      (byteCount (before ++ text) ≤ maxOffset →
        tokens.map (fun t => slice? (before ++ text) t.span.start t.span.stop) =
          lexemes.map some) := by
  induction h generalizing p before with
  | last h =>
    exact ⟨[], _, Lexer.scan_of_end (Lexer.read_last h p names), rfl, fun _ => rfl⟩
  | @token gap lexeme rest kind lexemes kinds hgap hlexeme hnext _ ih =>
    have hread := Lexer.read_lexeme hnames hlexeme hnext (p.afterAll gap)
    rw [← Lexer.read_layout hgap] at hread
    obtain ⟨tokens, ending, hscan, hkinds, hslices⟩ :=
      ih (before ++ (gap ++ lexeme)) (p := (p.afterAll gap).afterAll lexeme)
        (by simp only [Position.bytes_afterAll, byteCount_append, hp, Nat.add_assoc])
    have hsplit : before ++ (gap ++ (lexeme ++ rest)) = before ++ (gap ++ lexeme) ++ rest := by
      simp
    refine ⟨_, ending, by rw [Lexer.scan_of_token hread, hscan], ?_, fun hsize => ?_⟩
    · rw [List.map_cons, hkinds]
    -- the span is not clamped, because the source is short enough
    · have hfirst := slice?_append (before ++ gap) lexeme rest
      have hsize' := hsize
      simp only [byteCount_append] at hfirst hsize'
      rw [List.map_cons, List.map_cons, hsplit, hslices (by rwa [← hsplit])]
      simp only [Position.bytes_afterAll, hp]
      rw [clampOffset_of_le (by omega), clampOffset_of_le (by omega)]
      rw [show before ++ (gap ++ lexeme) ++ rest = before ++ gap ++ (lexeme ++ rest) by simp,
        hfirst]

end LaidOut

/-! ## Tokens of the same words -/

/-- Tokens that are known are of the same kind if they are of the same word. -/
theorem TokenKind.Known.eq_of_word_eq {names : Interner} {kind kind' : TokenKind}
    (h : kind.Known names) (h' : kind'.Known names) (hnames : names.Consistent)
    (hword : kind'.word names = kind.word names) : kind' = kind := by
  have hname : ∀ n n', kind.name? = some n → kind'.name? = some n' →
      names.spelling n' = names.spelling n → n' = n := by
    intro n n' hn hn' hspelling
    obtain ⟨s, hs⟩ := Option.isSome_iff_exists.mp (h n hn)
    obtain ⟨s', hs'⟩ := Option.isSome_iff_exists.mp (h' n' hn')
    rw [Interner.spelling, Interner.spelling, hs, hs'] at hspelling
    obtain rfl : s' = s := hspelling
    exact Option.some.inj (((hnames s' n').mpr hs').symm.trans ((hnames s' n).mpr hs))
  cases kind <;> cases kind' <;> simp only [word, reduceCtorEq, Word.number.injEq,
    Word.string.injEq, Word.identifier.injEq, Word.keyword.injEq, Word.punct.injEq,
    Word.operator.injEq] at hword
  case string.string | identifier.identifier | operator.operator => rw [hname _ _ rfl rfl hword]
  all_goals rw [hword]

/-- So lists of such tokens are of the same kinds if they are of the same words. -/
theorem kinds_eq_of_words {names : Interner} {tokens tokens' : List Token}
    (hnames : names.Consistent) (h : ∀ t ∈ tokens, t.kind.Known names)
    (h' : ∀ t ∈ tokens', t.kind.Known names)
    (hwords : wordsOf names tokens' = wordsOf names tokens) :
    tokens'.map Token.kind = tokens.map Token.kind := by
  induction tokens generalizing tokens' with
  | nil => rw [List.map_eq_nil_iff.mp hwords]
  | cons t tokens ih =>
    obtain ⟨t', more, rfl, hword, hmore⟩ := List.map_eq_cons_iff.mp hwords
    obtain ⟨ht, htokens⟩ := List.forall_mem_cons.mp h
    obtain ⟨ht', htokens'⟩ := List.forall_mem_cons.mp h'
    rw [List.map_cons, List.map_cons, ht.eq_of_word_eq ht' hnames hword, ih htokens htokens' hmore]

theorem textsOf_eq_words (names : Interner) (tokens : List Token) :
    textsOf names tokens = (wordsOf names tokens).filterMap Word.text? := by
  rw [textsOf_eq_spoken, wordsOf, List.filterMap_map, List.filterMap_map]
  rfl

/-- Sources of the same words have tokens of the same kinds, and number the same strings. -/
theorem scanSource_eq_of_words {source source' : String} {names : Interner}
    (hnames : names.Consistent)
    (hwords : wordsOf (scanSource source' names).names (scanSource source' names).tokens =
      wordsOf (scanSource source names).names (scanSource source names).tokens) :
    (scanSource source' names).names = (scanSource source names).names ∧
      (scanSource source' names).tokens.map Token.kind =
        (scanSource source names).tokens.map Token.kind := by
  have hfinal : ∀ source, (scanSource source names).names =
      names.internAll (textsOf (scanSource source names).names (scanSource source names).tokens) :=
    fun source => Lexer.names_scan (l := ⟨.ofString source, names⟩) hnames
  have hsame : (scanSource source' names).names = (scanSource source names).names := by
    rw [hfinal source', hfinal source, textsOf_eq_words, textsOf_eq_words, hwords]
  have hknown' : ∀ t ∈ (scanSource source' names).tokens,
      t.kind.Known (scanSource source' names).names :=
    fun t ht => known_of_mem_scanSource hnames ht
  refine ⟨hsame, ?_⟩
  rw [hsame] at hwords hknown'
  exact kinds_eq_of_words (consistent_scanSource hnames)
    (fun t ht => known_of_mem_scanSource hnames ht) hknown' hwords

/-! ## Sources with the same lexemes -/

/-- A source in which the lexemes of another one are laid out is accepted as well, with tokens of
the same kinds. -/
theorem lex_of_laidOut {source source' : String} {names last : Interner} {tokens : List Token}
    {lexemes : List (List Char)} (hnames : names.Consistent)
    (hlex : lex source names = (.ok tokens, last))
    (hlaid : LaidOut last source'.toList lexemes (tokens.map Token.kind)) :
    ∃ tokens', lex source' names = (.ok tokens', last) ∧
      tokens'.map Token.kind = tokens.map Token.kind ∧
      (byteCount source'.toList ≤ maxOffset →
        tokenTexts source' tokens' = lexemes.map some) := by
  obtain ⟨offset, hscan⟩ := lex_eq_ok_iff.mp hlex
  have hlast : last.Consistent := by
    have hscanned : (scanSource source names).names.Consistent := consistent_scanSource hnames
    rwa [hscan] at hscanned
  -- read where all strings are numbered, and then where the other source was read
  obtain ⟨found, ending, hfound, hkinds, hslices⟩ :=
    hlaid.scan_eq hlast [] (p := .start) rfl
  obtain ⟨hending, hspoken⟩ := Lexer.words_scan (l := ⟨.ofString source', names⟩) hnames hlast
  have hfound' : Lexer.scan ⟨.ofString source', last⟩ = ⟨found, .ok ending, last⟩ := hfound
  rw [hfound'] at hending hspoken
  have hwords : wordsOf (scanSource source' names).names (scanSource source' names).tokens =
      wordsOf (scanSource source names).names (scanSource source names).tokens := by
    have hfirst := congrArg (List.map Prod.fst) hspoken
    have hsecond := congrArg (List.map (TokenKind.word last)) hkinds
    rw [List.map_map, List.map_map] at hfirst hsecond
    rw [hscan]
    exact hfirst.symm.trans hsecond
  obtain ⟨hsame, hsameKinds⟩ := scanSource_eq_of_words hnames hwords
  rw [hscan] at hsame hsameKinds
  refine ⟨(scanSource source' names).tokens, ?_, hsameKinds, fun hsize => ?_⟩
  · have hends : (scanSource source' names).ending = .ok ending := hending.symm
    rw [lex_eq_scan, hends, hsame]
    rfl
  · have hspans := congrArg (List.map fun w => slice? source'.toList w.2.start w.2.stop) hspoken
    rw [List.map_map, List.map_map] at hspans
    exact hspans.symm.trans (hslices hsize)

/-- The lexemes of a source that is accepted. -/
theorem exists_laidOut_of_lex {source : String} {names last : Interner} {tokens : List Token}
    (hnames : names.Consistent) (hlex : lex source names = (.ok tokens, last)) :
    ∃ lexemes, LaidOut last source.toList lexemes (tokens.map Token.kind) ∧
      (byteCount source.toList ≤ maxOffset → tokenTexts source tokens = lexemes.map some) := by
  obtain ⟨offset, hscan⟩ := lex_eq_ok_iff.mp hlex
  obtain ⟨lexemes, hlaid⟩ := Lexer.exists_laidOut (l := ⟨.ofString source, names⟩) hnames
    (congrArg TokenList.ending hscan)
  rw [← scanSource, hscan] at hlaid
  obtain ⟨tokens', hlex', -, htexts⟩ := lex_of_laidOut hnames hlex hlaid
  rw [hlex] at hlex'
  cases hlex'
  exact ⟨lexemes, hlaid, htexts⟩

/-- Sources whose tokens take the same texts have tokens of the same kinds, and number the same
strings. -/
theorem kinds_eq_of_texts {p q : String} {names a b : Interner} {ts us : List Token}
    (hnames : names.Consistent) (hp : byteCount p.toList ≤ maxOffset)
    (hq : byteCount q.toList ≤ maxOffset) (hts : lex p names = (.ok ts, a))
    (hus : lex q names = (.ok us, b)) (htexts : tokenTexts q us = tokenTexts p ts) :
    us.map Token.kind = ts.map Token.kind ∧ b = a := by
  obtain ⟨lexemes, hlaid, hsplit⟩ := exists_laidOut_of_lex hnames hts
  obtain ⟨lexemes', hlaid', hsplit'⟩ := exists_laidOut_of_lex hnames hus
  obtain ⟨x, hscan⟩ := lex_eq_ok_iff.mp hts
  obtain ⟨y, hscan'⟩ := lex_eq_ok_iff.mp hus
  have hsame : lexemes' = lexemes := by
    rw [hsplit hp, hsplit' hq] at htexts
    exact List.map_injective_iff.mpr (fun _ _ => Option.some.inj) htexts
  subst hsame
  have ha : (scanSource p names).names.Consistent := consistent_scanSource hnames
  have hb : (scanSource q names).names.Consistent := consistent_scanSource hnames
  rw [hscan] at ha
  rw [hscan'] at hb
  have hwords := hlaid.words_eq hlaid' ha hb
  rw [List.map_map, List.map_map] at hwords
  have hsamewords : wordsOf (scanSource q names).names (scanSource q names).tokens =
      wordsOf (scanSource p names).names (scanSource p names).tokens := by
    rw [hscan, hscan']
    exact hwords
  have hequal := scanSource_eq_of_words hnames hsamewords
  rw [hscan, hscan'] at hequal
  exact ⟨hequal.2, hequal.1⟩

/-! ## Spreading lexemes -/

/-- Texts with gaps in front of them, between them and behind them. -/
def spread (gap : Nat → List Char) : List (List Char) → List Char
  | [] => gap 0
  | text :: texts => gap 0 ++ (text ++ spread (fun i => gap (i + 1)) texts)

/-- Layout begins with a blank or a comment. -/
theorem Layout.head {last : Prop} {gap : List Char} (h : Layout last gap) {c : Char}
    (hc : gap.head? = some c) : isBlank c = true ∨ c = '#' := by
  cases h with
  | nil => contradiction
  | blank hblank _ =>
    cases hc
    exact .inl hblank
  | comment | lastComment =>
    cases hc
    exact .inr rfl

/-- Layout makes no token longer. -/
theorem TokenKind.continues_eq_false {c : Char} (h : isBlank c = true ∨ c = '#')
    (kind : TokenKind) : kind.Continues c = false := by
  rcases h with hblank | rfl
  · cases kind with
    | number => exact Lexer.not_isDigit_of_isBlank c hblank
    | identifier | keyword => exact Lexer.not_isWordChar_of_isBlank c hblank
    | operator => exact Lexer.not_isOperatorChar_of_isBlank c hblank
    | string | punct => rfl
  · cases kind <;> rfl

/-- What can be put between `n` lexemes, in front of them and behind them. -/
structure Gaps (gap : Nat → List Char) (n : Nat) : Prop where
  layout : ∀ i, Layout False (gap i)
  between : ∀ i, 0 < i → i < n → gap i ≠ []

theorem Gaps.tail {gap : Nat → List Char} {n : Nat} (h : Gaps gap (n + 1)) :
    Gaps (fun i => gap (i + 1)) n where
  layout i := h.layout (i + 1)
  between i _ hi := h.between (i + 1) (Nat.succ_pos i) (Nat.succ_lt_succ hi)

/-- Behind a lexeme there is layout, or the end of the text. -/
theorem Gaps.head_spread {gap : Nat → List Char} {lexemes : List (List Char)}
    (h : Gaps gap (lexemes.length + 1)) {c : Char}
    (hc : (spread (fun i => gap (i + 1)) lexemes).head? = some c) : isBlank c = true ∨ c = '#' := by
  cases lexemes with
  | nil => exact (h.layout 1).head hc
  | cons lexeme lexemes =>
    have hne : gap 1 ≠ [] := h.between 1 Nat.one_pos (Nat.succ_lt_succ (Nat.succ_pos _))
    rw [spread, List.head?_append_of_ne_nil _ hne] at hc
    exact (h.layout 1).head hc

/-- Other layout between the same lexemes. -/
theorem LaidOut.spread {names : Interner} {text : List Char} {lexemes : List (List Char)}
    {kinds : List TokenKind} (h : LaidOut names text lexemes kinds) {gap : Nat → List Char}
    (hgap : Gaps gap lexemes.length) :
    LaidOut names (LambdaScript.spread gap lexemes) lexemes kinds := by
  induction h generalizing gap with
  | last =>
    have hlast : Layout True (gap 0 ++ []) := (hgap.layout 0).append .nil
    rw [List.append_nil] at hlast
    exact .last hlast
  | token _ hlexeme _ _ ih =>
    exact .token (hgap.layout 0) hlexeme
      (fun c hc => TokenKind.continues_eq_false (hgap.head_spread hc) _) (ih hgap.tail)

end LambdaScript
