import LambdaScript.Proofs.Lookahead
import LambdaScript.Proofs.Renumbering
import LambdaScript.Proofs.Texts
/-!
# Reading on demand

A parser has tokens cut from its source as it asks for them. What it reads is what it would read if
the source were cut into tokens first: the same tree or the same error, as long as there are tokens,
and the lexical error at most where they end. It leaves behind the strings of the tokens that it has
looked at, and of no other (`parseSource_on_demand`).
-/

namespace LambdaScript

/-! ## Streams that have been read in part -/

/-- A stream that began with the lexer `start` has had these tokens cut, and no others. -/
structure TokenStream.HasCut (start : Lexer) (looked : List Token) (s : TokenStream) : Prop where
  consistent : s.lexer.names.Consistent
  tokens : start.scan.tokens = looked ++ s.lexer.scan.tokens
  later : s.lexer.scan.names = start.scan.names
  names : s.lexer.names = start.names.internAll (textsOf start.scan.names looked)
  /-- A token that is held was the last to be cut. -/
  last : ∀ t, s.peeked = some (some t) → looked.getLast? = some t
  ended : s.peeked = some none → s.lexer.scan.tokens = []

namespace TokenStream

variable {start : Lexer} {looked : List Token} {s : TokenStream}

theorem hasCut_start (h : start.names.Consistent) : HasCut start [] ⟨start, none⟩ where
  consistent := h
  tokens := rfl
  later := rfl
  names := rfl
  last _ hpeeked := nomatch hpeeked
  ended hpeeked := nomatch hpeeked

/-- A token that is held can be given out. -/
theorem HasCut.forget (h : s.HasCut start looked) : HasCut start looked ⟨s.lexer, none⟩ where
  consistent := h.consistent
  tokens := h.tokens
  later := h.later
  names := h.names
  last _ hpeeked := nomatch hpeeked
  ended hpeeked := nomatch hpeeked

/-- One more token is cut. -/
theorem HasCut.read_token (h : s.HasCut start looked) {t : Token} {m : Lexer}
    (hread : s.lexer.read = (.ok (some t), m)) {peeked : Option (Option Token)}
    (hpeeked : ∀ u, peeked = some u → u = some t) : HasCut start (looked ++ [t]) ⟨m, peeked⟩ := by
  have hscan := Lexer.scan_of_token hread
  have hnumbers := Lexer.numbers_read h.consistent
  have hnames := Lexer.names_read h.consistent
  rw [hread] at hnumbers hnames
  have hlater : m.scan.names = start.scan.names := by
    rw [← h.later, hscan]
  have hgrows : m.names.Grows start.scan.names := by
    rw [← hlater]
    exact (Lexer.numbers_scan hnumbers.consistent).2.1
  have hknown : t.kind.Known m.names := hnumbers.known _ rfl
  refine ⟨hnumbers.consistent, ?_, hlater, ?_, fun u hu => ?_, fun hnone => ?_⟩
  · rw [h.tokens, hscan, List.append_assoc, List.singleton_append]
  · have htext : textsOf start.scan.names [t] = (t.kind.text? m.names).toList := by
      rw [textsOf_cons, hknown.text?_eq hgrows, textsOf, List.filterMap_nil, List.append_nil]
    rw [textsOf_append, Interner.internAll_append, ← h.names, htext]
    exact hnames
  · rw [List.getLast?_concat, ← hpeeked _ hu]
  · cases hpeeked none hnone

/-- The end of the source is met. -/
theorem HasCut.read_none (h : s.HasCut start looked) {m : Lexer}
    (hread : s.lexer.read = (.ok none, m)) {peeked : Option (Option Token)}
    (hpeeked : ∀ u, peeked = some u → u = none) : HasCut start looked ⟨m, peeked⟩ := by
  have hscan := Lexer.scan_of_end hread
  have hnumbers := Lexer.numbers_read h.consistent
  have hnames := Lexer.names_read h.consistent
  rw [hread] at hnumbers hnames
  -- there is nothing left, so that the end will be met again
  have hagain : m.scan = ⟨[], .ok m.chars.offset, m.names⟩ := by
    obtain ⟨⟨rest, position⟩, names⟩ := m
    obtain rfl : rest = [] := Lexer.rest_of_read_none hread
    exact Lexer.scan_of_end (Lexer.read_nil position names)
  refine ⟨hnumbers.consistent, ?_, ?_, ?_, fun u hu => ?_, fun _ => ?_⟩
  · rw [h.tokens, hscan, hagain]
  · rw [← h.later, hscan, hagain]
  · rw [← h.names]
    exact hnames
  · cases hpeeked _ hu
  · rw [hagain]

/-- A lexical error is met behind the last token. -/
theorem HasCut.read_error (h : s.HasCut start looked) {e : LexError} {m : Lexer}
    (hread : s.lexer.read = (.error e, m)) : start.scan.tokens = looked ∧
      m.names = start.names.internAll (textsOf start.scan.names looked) := by
  have hnames := Lexer.names_read h.consistent
  rw [hread] at hnames
  rw [h.tokens, Lexer.scan_of_error hread, List.append_nil, ← h.names]
  exact ⟨rfl, hnames⟩

/-- What a stream looks like when reading from it has failed. -/
def Abandoned (start : Lexer) (s : TokenStream) : SyntaxError → Prop
  | .lexical _ =>
    s.lexer.names = start.names.internAll (textsOf start.scan.names start.scan.tokens)
  | .grammatical _ => ∃ looked, s.HasCut start looked

/-- Tokens are cut one behind the other, whether they are looked at or taken. -/
theorem invariant_hasCut (start : Lexer) :
    Parser.Invariant (fun s : TokenStream => ∃ looked, s.HasCut start looked)
      (fun e s => s.Abandoned start e) where
  peek s := by
    rintro ⟨looked, h⟩
    show Parser.Leaves _ _ s.peek
    unfold TokenStream.peek
    split
    · exact ⟨looked, h⟩
    · rcases hread : s.lexer.read with ⟨e | _ | t, m⟩
      · obtain ⟨htokens, hnames⟩ := h.read_error hread
        rw [← htokens] at hnames
        exact hnames
      · exact ⟨looked, h.read_none hread fun u hu => (Option.some.inj hu).symm⟩
      · exact ⟨looked ++ [t], h.read_token hread fun u hu => (Option.some.inj hu).symm⟩
  next s := by
    rintro ⟨looked, h⟩
    show Parser.Leaves _ _ s.next
    unfold TokenStream.next
    split
    · exact ⟨looked, h.forget⟩
    · rcases hread : s.lexer.read with ⟨e | _ | t, m⟩
      · obtain ⟨htokens, hnames⟩ := h.read_error hread
        rw [← htokens] at hnames
        exact hnames
      · exact ⟨looked, h.read_none hread fun u hu => nomatch hu⟩
      · exact ⟨looked ++ [t], h.read_token hread fun u hu => nomatch hu⟩
  fail _ _ h := h

/-- What is shown again and again is held. -/
theorem peeked_of_peek {next : Option Token} (h : s.peek = (.ok next, s)) :
    s.peeked = some next := by
  unfold TokenStream.peek at h
  split at h
  · next token hpeeked =>
    rw [hpeeked]
    cases h
    rfl
  · next hpeeked =>
    split at h
    · cases h
      contradiction
    · cases h

end TokenStream

/-! ## Where the parser stops -/

/-- The parser has looked at the tokens `looked` of a source and at none behind them: those are
still to be cut, unless the parser met a lexical error, which stands behind the last token. -/
structure LooksAt (source : String) (names : Interner) (result : Except SyntaxError Tree)
    (rest : TokenStream) (looked unread : List Token) : Prop where
  tokens : (scanSource source names).tokens = looked ++ unread
  uncut : (∀ e, result ≠ .error (.lexical e)) → rest.lexer.scan.tokens = unread
  /-- Only an error against the grammar is told before the end. -/
  whole : (∀ e, result ≠ .error (.grammatical e)) → unread = []
  /-- Such an error is told at the last token looked at, or at the end of the source. -/
  last : ∀ e, result = .error (.grammatical e) → ∃ next, rest.peek = (.ok next, rest) ∧
    (next = none → unread = []) ∧ ∀ t, next = some t → looked.getLast? = some t

section
variable {source : String} {names : Interner}

/-- The parser leaves behind the texts of the tokens that it has looked at. -/
theorem exists_looksAt (hnames : names.Consistent) {result : Except SyntaxError Tree}
    {rest : TokenStream} (h : Grammar.parse (TokenStream.ofString source names) = (result, rest)) :
    ∃ looked unread, LooksAt source names result rest looked unread ∧
      rest.names = names.internAll (textsOf (scanSource source names).names looked) := by
  have hkeeps := Grammar.keeps_parse (s := TokenStream.ofString source names)
    (TokenStream.invariant_hasCut ⟨.ofString source, names⟩) ⟨[], TokenStream.hasCut_start hnames⟩
  rw [h] at hkeeps
  rcases Grammar.parse_cases (presents_ofString source hnames) with
    ⟨tree, rest', hparse, -, hlooking⟩ | ⟨e, rest', hparse, -, hstops⟩
  · rw [h] at hparse
    cases hparse
    obtain ⟨looked, hcut⟩ := hkeeps
    have hnone : rest.lexer.scan.tokens = [] := by
      cases hlooking with
      | stop hpeek _ _ => exact hcut.ended (TokenStream.peeked_of_peek hpeek)
    have htokens := hcut.tokens
    rw [hnone] at htokens
    exact ⟨looked, [], ⟨htokens, fun _ => hnone, fun _ => rfl, fun e he => nomatch he⟩, hcut.names⟩
  · rw [h] at hparse
    cases hparse
    cases e with
    | lexical l =>
      refine ⟨_, [], ⟨(List.append_nil _).symm, fun hno => absurd rfl (hno l), fun _ => rfl, ?_⟩,
        hkeeps⟩
      exact fun e he => nomatch he
    | grammatical e =>
      obtain ⟨looked, hcut⟩ := hkeeps
      have hpeek := hstops.resolve_left fun ⟨l, hl⟩ => nomatch hl
      have hpeeked := TokenStream.peeked_of_peek hpeek
      refine ⟨looked, rest.lexer.scan.tokens, ⟨hcut.tokens, fun _ => rfl, ?_, fun _ _ => ?_⟩,
        hcut.names⟩
      · exact fun hno => absurd rfl (hno e)
      · refine ⟨_, hpeek, fun hnone => ?_, fun t ht => ?_⟩
        · rw [hnone] at hpeeked
          exact hcut.ended hpeeked
        · rw [ht] at hpeeked
          exact hcut.last t hpeeked

/-- Reading a source numbers some strings, also if it is no program. -/
theorem names_of_parseSource {names' : Interner} {result : Except SyntaxError Tree}
    (h : names.Consistent) (hparse : parseSource source names = (result, names')) :
    ∃ texts, names' = names.internAll texts := by
  rcases hread : Grammar.parse (TokenStream.ofString source names) with ⟨read, rest⟩
  obtain ⟨looked, unread, -, hnames⟩ := exists_looksAt h hread
  rw [parseSource, hread] at hparse
  cases hparse
  exact ⟨_, hnames⟩

/-- The numbers that are in use stay in use. -/
theorem made_of_parseSource {names' : Interner} {result : Except SyntaxError Tree}
    (h : names.Made) (hparse : parseSource source names = (result, names')) :
    names'.Made ∧ names.Grows names' := by
  obtain ⟨texts, rfl⟩ := names_of_parseSource h.consistent hparse
  exact ⟨h.internAll texts, Interner.grows_internAll names texts⟩

/-! ## Sources that begin alike -/

/-- An error against the grammar is not changed by what stands behind it. -/
theorem Grammar.Config.run_append_of_error {c : Grammar.Config} {names : Interner} {l : LexError}
    {tokens left : List Token} {e : ParseError}
    (h : c.run names (.error l) tokens = (.error (.grammatical e), left))
    (ending : Except LexError Nat) (more : List Token) :
    (c.run names ending (tokens ++ more)).1 = .error (.grammatical e) := by
  induction tokens generalizing c with
  | nil => cases h
  | cons t tokens ih =>
    cases hfeed : c.feed names (some t) with
    | ok d =>
      rw [run_cons_of_ok hfeed] at h
      rw [List.cons_append, run_cons_of_ok hfeed]
      exact ih h
    | error complaint =>
      rw [run_cons_of_error hfeed] at h
      rw [List.cons_append, run_cons_of_error hfeed]
      cases h
      rfl

/-- If a source cannot be cut to its end, an error against the grammar is one of all sources that
begin with the same tokens. -/
theorem parseSource_error_of_prefix {source' : String} {others : Interner} {l : LexError}
    {e : ParseError} (hnames : names.Consistent) (hothers : others.Consistent)
    (hending : (scanSource source names).ending = .error l)
    (h : (parseSource source names).1 = .error (.grammatical e))
    (hbegins : spokenSource source names <+: spokenSource source' others) :
    (parseSource source' others).1 = .error (.grammatical e) := by
  obtain ⟨later, hlater, hheld, hheld'⟩ :=
    Interner.exists_common (scanSource source names).names (scanSource source' others).names
  obtain ⟨more, hmore⟩ := hbegins
  have hfirst := map_parseSource hnames (.refl _) hlater hheld
  have hsecond := map_parseSource hothers (.refl _) hlater hheld'
  -- both are runs of the machine under the interner that they have in common
  rw [h, reread, hending] at hfirst
  rw [reread, ← hmore, List.map_append] at hsecond
  have hrun := Grammar.Config.run_append_of_error (Prod.ext hfirst.symm rfl)
    (scanSource source' others).ending (more.map (.ofSpoken later))
  rw [hrun] at hsecond
  cases hparse : (parseSource source' others).1 with
  | ok tree =>
    rw [hparse] at hsecond
    cases hsecond
  | error e' =>
    rw [hparse] at hsecond
    exact hsecond

/-! ## Sources -/

theorem parseSource_eq_run (hnames : names.Consistent) :
    (parseSource source names).1 = (Grammar.Config.start.run (scanSource source names).names
      (scanSource source names).ending (scanSource source names).tokens).1 :=
  Grammar.parse_eq_run (presents_ofString source hnames)

/-- A source that can be cut into tokens is read like the list of its tokens. -/
theorem parseSource_of_lex_ok {tokens : List Token} {names' : Interner}
    (hnames : names.Consistent) (hlex : lex source names = (.ok tokens, names')) :
    (∀ l, (parseSource source names).1 ≠ .error (.lexical l)) ∧
      (parseSource source names).1 = (Grammar.parse (σ := TokenList)
        ⟨tokens, .ok (clampOffset (byteCount source.toList)), names'⟩).1 := by
  obtain ⟨offset, hscan⟩ := lex_eq_ok_iff.mp hlex
  have hoffset : offset = clampOffset (byteCount source.toList) :=
    ending_scanSource (congrArg TokenList.ending hscan)
  have hrun : (parseSource source names).1 = _ := parseSource_eq_run hnames
  rw [hscan] at hrun
  refine ⟨fun l hl => ?_, ?_⟩
  · rw [hl] at hrun
    have hending := Grammar.Config.ending_of_run_lexical (Prod.ext hrun.symm rfl)
    contradiction
  · rw [hrun, ← hoffset]
    exact (Grammar.parse_eq_run (TokenList.presents tokens)).symm

/-- A source that cannot be cut to its end is no program. -/
theorem parseSource_of_lex_error {l : LexError} (hnames : names.Consistent)
    (hlex : (lex source names).1 = .error l) :
    (parseSource source names).1 = .error (.lexical l) ∨
      ∃ e, (parseSource source names).1 = .error (.grammatical e) ∧
        ∀ (source' : String) (others : Interner), others.Made →
          spokenSource source names <+: spokenSource source' others →
          (parseSource source' others).1 = .error (.grammatical e) := by
  have hending := ending_of_lex_error hlex
  have hrun : (parseSource source names).1 = _ := parseSource_eq_run hnames
  rw [hending] at hrun
  rcases hresult : (parseSource source names).1 with (l' | e) | tree
  · rw [hresult] at hrun
    have hend := Grammar.Config.ending_of_run_lexical (Prod.ext hrun.symm rfl)
    cases hend
    exact .inl rfl
  · refine .inr ⟨e, rfl, fun source' others hothers hbegins => ?_⟩
    exact parseSource_error_of_prefix hnames hothers.consistent hending hresult hbegins
  · rw [hresult] at hrun
    obtain ⟨offset, hend⟩ := Grammar.Config.ending_of_run_ok (Prod.ext hrun.symm rfl)
    contradiction

/-- Cutting tokens on demand makes no difference to what is read. If the source can be cut into
tokens, the result is that of the list of its tokens. If it cannot, the result is that error or one
against the grammar, which the tokens before the lexical error determine alone. And the interner
holds besides the old strings the new texts of the tokens that the parser has looked at. -/
theorem parseSource_on_demand (source : String) {names : Interner} (hnames : names.Made) :
    (∀ tokens names', lex source names = (.ok tokens, names') →
      (∀ l, (parseSource source names).1 ≠ .error (.lexical l)) ∧
      (parseSource source names).1 = (Grammar.parse (σ := TokenList)
        ⟨tokens, .ok (clampOffset (byteCount source.toList)), names'⟩).1) ∧
    (∀ l, (lex source names).1 = .error l →
      (parseSource source names).1 = .error (.lexical l) ∨
      ∃ e, (parseSource source names).1 = .error (.grammatical e) ∧
        ∀ (source' : String) (others : Interner), others.Made →
          spokenSource source names <+: spokenSource source' others →
          (parseSource source' others).1 = .error (.grammatical e)) ∧
    ∃ looked unread result rest,
      Grammar.parse (TokenStream.ofString source names) = (result, rest) ∧
      LooksAt source names result rest looked unread ∧
      parseSource source names = (result, rest.names) ∧ rest.names.Made ∧
      rest.names.strings.toList =
        names.strings.toList ++ names.newTo (textsOf (scanSource source names).names looked) := by
  have hconsistent := hnames.consistent
  refine ⟨fun tokens names' hlex => parseSource_of_lex_ok hconsistent hlex,
    fun l hlex => parseSource_of_lex_error hconsistent hlex, ?_⟩
  rcases hparse : Grammar.parse (TokenStream.ofString source names) with ⟨result, rest⟩
  obtain ⟨looked, unread, hlooks, hleft⟩ := exists_looksAt hconsistent hparse
  have hsource : parseSource source names = (result, rest.names) := by
    rw [parseSource, hparse]
  refine ⟨looked, unread, result, rest, rfl, hlooks, hsource, ?_, ?_⟩
  · rw [hleft]
    exact hnames.internAll _
  · rw [hleft, Interner.strings_internAll hconsistent]

end

/-- A comma is missing in front of `b`, and the question mark is no token. It is not met: the error
is the same if the source ends behind `c`, and `c` is not numbered. -/
theorem parseSource_on_demand_missing_comma :
    (parseSource "f(a b c ?" .fresh).2.strings.toList = ["", "f", "a", "b"] ∧
      (parseSource "f(a b c" .fresh).1 =
        .error (.grammatical ⟨.mismatch "`,`" "identifier `b`", ⟨4, 5⟩⟩) := by
  obtain ⟨-, hbroken, -⟩ := parseSource_on_demand "f(a b c ?" .fresh
  have herror : (parseSource "f(a b c ?" .fresh).1 =
      .error (.grammatical ⟨.mismatch "`,`" "identifier `b`", ⟨4, 5⟩⟩) := by
    with_unfolding_all rfl
  refine ⟨?_, ?_⟩
  · decide +kernel
  · have hlex : (lex "f(a b c ?" .fresh).1 = .error ⟨.invalidCharacter '?', 1, 8, 8⟩ := by
      with_unfolding_all rfl
    have hbegins : spokenSource "f(a b c ?" .fresh <+: spokenSource "f(a b c" .fresh :=
      ⟨_, by with_unfolding_all rfl⟩
    rcases hbroken _ hlex with hlexical | ⟨e, he, hsame⟩
    · rw [herror] at hlexical
      cases hlexical
    · rw [herror] at he
      cases he
      exact hsame _ _ .fresh hbegins

end LambdaScript
