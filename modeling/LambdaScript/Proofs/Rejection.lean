import LambdaScript.Proofs.Locality
import LambdaScript.Proofs.Viability
/-!
# Where a source is rejected

A syntax error is told at the earliest token at which it can be known (`Grammar.parse_rejects`):
what stands before that token is the beginning of a program, and with the token it is none. The one
exception is an `=` with something else than a variable left of it, which is told only when its
right side is complete.

`Viable` says that some program begins with these words.
-/

namespace LambdaScript

/-- The tokens of some program begin with these words. -/
def Viable (words : List Word) : Prop :=
  ∃ source names names' tree tokens, names.Made ∧ parseSource source names = (.ok tree, names') ∧
    lex source names = (.ok tokens, names') ∧ words <+: wordsOf names' tokens

namespace Grammar

variable {names names' : Interner} {c : Config} {before after : List Token} {t : Token}

/-! ## Words that no program begins with -/

theorem start_alike : Config.start.Alike Config.start := ⟨.nil, .item⟩

/-- The tokens of a program take the machine through configurations that are alike. -/
theorem exists_run_of_viable (h : Viable (wordsOf names before)) :
    ∃ (names' : Interner) (offset : Nat) (tree : Tree) (first rest : List Token) (c' : Config),
      wordsOf names' first = wordsOf names before ∧
      Config.start.feedAll names' first = .ok c' ∧
      c'.run names' (.ok offset) rest = (.ok tree, []) := by
  obtain ⟨source, names₀, names', tree, tokens, hmade, hparse, hlex, hprefix⟩ := h
  obtain ⟨offset, hscan⟩ := lex_eq_ok_iff.mp hlex
  have hrun := ((parseSource_eq_ok_iff hmade.consistent).mp hparse).1
  rw [runSourceTokens, hscan] at hrun
  obtain ⟨more, hmore⟩ := hprefix
  obtain ⟨first, rest, rfl, hfirst, -⟩ := List.map_eq_append_iff.mp hmore.symm
  obtain ⟨c', hfeed, hrest⟩ := Config.feedAll_of_run_ok hrun
  exact ⟨names', offset, tree, first, rest, c', hfirst, hfeed, hrest⟩

/-- A token that does not fit cannot be made to fit by what follows. -/
theorem not_viable_of_error {complaint : Complaint}
    (hall : Config.start.feedAll names before = .ok c)
    (h : c.feed names (some t) = .error complaint) : ¬Viable (wordsOf names (before ++ [t])) := by
  intro hviable
  obtain ⟨names', offset, tree, first, rest, c', hwords, hfeed, -⟩ := exists_run_of_viable hviable
  have halike := alike_feedAll start_alike hwords
  rw [hfeed, Config.feedAll_append hall, Config.feedAll, h] at halike
  exact halike

/-- Behind an `=` with something else than a variable left of it there is nothing to follow. -/
theorem not_viable_of_doomed (hall : Config.start.feedAll names before = .ok c) (h : c.Doomed) :
    ¬Viable (wordsOf names before) := by
  intro hviable
  obtain ⟨names', offset, tree, first, rest, c', hwords, hfeed, hrun⟩ :=
    exists_run_of_viable hviable
  have halike := alike_feedAll start_alike hwords
  rw [hall, hfeed] at halike
  exact run_of_doomed (h.alike halike) hrun

/-! ## Words that a program begins with -/

theorem isFixed_closers : ∀ kind ∈ c.closers, kind.IsFixed := by
  have hpoint : ∀ kind ∈ c.point.closers, kind.IsFixed := by
    cases c.point <;> simp [Point.closers, TokenKind.IsFixed]
  have hframe : ∀ frame : Frame, ∀ kind ∈ frame.closers, kind.IsFixed := by
    intro frame
    cases frame <;> simp [Frame.closers, TokenKind.IsFixed]
  intro kind hkind
  rcases List.mem_append.mp hkind with hkind | hkind
  · exact hpoint kind hkind
  · obtain ⟨frame, -, hmem⟩ := List.mem_flatMap.mp hkind
    exact hframe frame kind hmem

/-- Tokens that fit begin a program, which goes on with what closes the open constructs. -/
theorem viable_of_feedAll {source : String} (hnames : names.Made)
    (htokens : (scanSource source names).tokens = before ++ after)
    (hall : Config.start.feedAll (scanSource source names).names before = .ok c)
    (h : ¬c.Doomed) : Viable (wordsOf (scanSource source names).names before) := by
  -- the source is cut off behind the tokens, and what closes them is written down instead
  obtain ⟨text, m, hcut⟩ :=
    Lexer.exists_cut (l := ⟨.ofString source, names⟩) hnames.consistent htokens
  have hwords : wordsOf (scanSource source names).names before = wordsOf m.names before := by
    refine List.map_congr_left fun t ht => ?_
    exact ((hcut.known t ht).alike hcut.ends).word_eq
  -- the machine with the numbers known at the cut
  have halike := alike_feedAll start_alike hwords
  rw [hall] at halike
  rcases hcut' : Config.start.feedAll m.names before with complaint | d
  · rw [hcut'] at halike
    exact halike.elim
  rw [hcut'] at halike
  have hd : ¬d.Doomed := fun hdoomed => h (hdoomed.alike halike)
  obtain ⟨closers, offset, hclosers, hkinds⟩ :=
    Lexer.scan_textOf (isFixed_closers (c := d)) m.chars.position m.names
  obtain ⟨tree, hrun⟩ := run_config_closers offset hd hkinds
  have hscan : scanSource (String.ofList (text ++ Lexer.textOf d.closers)) names =
      ⟨before ++ closers, .ok offset, m.names⟩ := by
    have hmore := hcut.scan _ (Lexer.mayFollow_textOf m.chars.rest d.closers)
    rw [hclosers] at hmore
    rw [scanSource, CharStream.ofString, String.toList_ofList]
    exact hmore
  refine ⟨String.ofList (text ++ Lexer.textOf d.closers), names, m.names, tree, before ++ closers,
    hnames, ?_, ?_, ?_⟩
  · refine (parseSource_eq_ok_iff hnames.consistent).mpr ⟨?_, by rw [hscan]⟩
    rw [runSourceTokens, hscan]
    exact (Config.run_append hcut').trans hrun
  · exact lex_eq_ok_iff.mpr ⟨offset, hscan⟩
  · rw [hwords, wordsOf, wordsOf, List.map_append]
    exact List.prefix_append _ _

/-- No `=` among the tokens has something else than a variable left of it. -/
def VariableTargets (names : Interner) (tokens : List Token) : Prop :=
  ∀ before t after c left, tokens = before ++ t :: after →
    connective? names t = some .assignment →
    Config.start.feedAll names (before ++ [t]) = .ok c → c.target? = some left → left.isVar = true

theorem not_doomed_of_variableTargets (hall : Config.start.feedAll names before = .ok c)
    (h : VariableTargets names before) : ¬c.Doomed := by
  rintro ⟨left, hmem, hleft⟩
  rcases exists_assignment_of_mem_targets hall hmem with hstart |
    ⟨xs, t, ys, d, hsplit, ht, hd, htarget⟩
  · contradiction
  · rw [h xs t ys d left hsplit ht hd htarget] at hleft
    contradiction

/-! ## What a syntax error tells -/

/-- The error is told at a token: the tokens before it begin a program, unless an `=` among them is
faulty, and together with it they begin none. -/
def RejectsToken (source : String) (names : Interner) (rest : TokenStream) (found : String)
    (span : Span) : Prop :=
  ∃ before t after, (scanSource source names).tokens = before ++ t :: after ∧
    rest.peek = (.ok (some t), rest) ∧ span = t.span ∧
    found = t.kind.describe (scanSource source names).names ∧
    ¬Viable (wordsOf (scanSource source names).names (before ++ [t])) ∧
    (VariableTargets (scanSource source names).names before →
      Viable (wordsOf (scanSource source names).names before))

/-- The error is told at the end of the source: all its tokens begin a program, unless an `=` among
them is faulty. -/
def RejectsEnd (source : String) (names : Interner) (rest : TokenStream) (span : Span) : Prop :=
  ∃ tokens names', lex source names = (.ok tokens, names') ∧ rest.peek = (.ok none, rest) ∧
    span = .point (byteCount source.toList) ∧
    (VariableTargets names' tokens → Viable (wordsOf names' tokens))

/-- The error is told of an operand that is no variable and that was read just before an `=`: the
tokens taken by then begin no program. -/
def RejectsTarget (source : String) (names : Interner) (rest : TokenStream) (span : Span) : Prop :=
  ∃ before after, (scanSource source names).tokens = before ++ after ∧
    rest.peek = (.ok after.head?, rest) ∧
    ¬Viable (wordsOf (scanSource source names).names before) ∧
    ∃ xs t ys c left, before = xs ++ t :: ys ∧
      connective? (scanSource source names).names t = some .assignment ∧
      Config.start.feedAll (scanSource source names).names (xs ++ [t]) = .ok c ∧
      c.target? = some left ∧ left.isVar = false ∧ span = left.span

/-- What an error tells about the source, by its fault. -/
def Rejects (source : String) (names : Interner) (rest : TokenStream) : ParseError → Prop
  | ⟨.unexpectedToken found, span⟩ | ⟨.mismatch _ found, span⟩ =>
    RejectsToken source names rest found span
  | ⟨.expectedParameterName found, span⟩ =>
    if found = "end of input" then RejectsEnd source names rest span
    else RejectsToken source names rest found span
  | ⟨.unexpectedEnd _, span⟩ => RejectsEnd source names rest span
  | ⟨.invalidAssignmentTarget, span⟩ => RejectsTarget source names rest span

theorem describe_ne_endOfInput (kind : TokenKind) (names : Interner) :
    kind.describe names ≠ "end of input" := by
  intro h
  -- no description begins with an `e`
  have hfirst := congrArg (fun s => s.toList.head?) h
  cases kind <;> simp [TokenKind.describe, String.toList_append] at hfirst

/-- A complaint at a token. -/
theorem rejects_token {source : String} {rest : TokenStream} {complaint : Complaint}
    (hnames : names.Made) (htokens : (scanSource source names).tokens = before ++ after)
    (ht : after.head? = some t) (hpeek : rest.peek = (.ok (some t), rest))
    (hall : Config.start.feedAll (scanSource source names).names before = .ok c)
    (herror : c.feed (scanSource source names).names (some t) = .error complaint) :
    Rejects source names rest (complaint.report (scanSource source names).names 0 (some t)) := by
  obtain ⟨after, rfl⟩ : ∃ tail, after = t :: tail := by
    cases after with
    | nil => contradiction
    | cons u tail =>
      cases ht
      exact ⟨tail, rfl⟩
  have hrejects : RejectsToken source names rest
      (t.kind.describe (scanSource source names).names) t.span :=
    ⟨before, t, after, htokens, hpeek, rfl, rfl, not_viable_of_error hall herror, fun hvariables =>
      viable_of_feedAll hnames htokens hall (not_doomed_of_variableTargets hall hvariables)⟩
  cases complaint with
  | noExpression | noPunct | noKeyword => exact hrejects
  | noParameter =>
    show if _ then _ else _
    rw [if_neg (describe_ne_endOfInput _ _)]
    exact hrejects
  | badTarget span =>
    obtain ⟨left, hmem, hleft, hspan⟩ := exists_target_of_feed herror
    rcases exists_assignment_of_mem_targets hall hmem with hstart | ⟨xs, u, ys, d, hrest⟩
    · contradiction
    · obtain ⟨hsplit, hu, hd, htarget⟩ := hrest
      exact ⟨before, t :: after, htokens, hpeek, not_viable_of_doomed hall ⟨left, hmem, hleft⟩, xs,
        u, ys, d, left, hsplit, hu, hd, htarget, hleft, hspan⟩

/-- A complaint at the end of the source. -/
theorem rejects_end {source : String} {rest : TokenStream} {complaint : Complaint}
    {tokens : List Token} {offset : Nat} (hnames : names.Made)
    (hlength : byteCount source.toList < maxOffset)
    (hscan : scanSource source names = ⟨tokens, .ok offset, names'⟩)
    (hpeek : rest.peek = (.ok none, rest)) (hall : Config.start.feedAll names' tokens = .ok c)
    (herror : c.feed names' none = .error complaint) :
    Rejects source names rest (complaint.report names' offset none) := by
  have htokens : (scanSource source names).tokens = tokens ++ [] := by
    rw [hscan, List.append_nil]
  have hoffset : offset = byteCount source.toList := by
    have hending : (scanSource source names).ending = .ok offset := by rw [hscan]
    rw [ending_scanSource hending]
    exact Nat.min_eq_left (Nat.le_of_lt hlength)
  have hrejects : RejectsEnd source names rest (.point offset) := by
    refine ⟨tokens, names', lex_eq_ok_iff.mpr ⟨offset, hscan⟩, hpeek, by rw [hoffset], ?_⟩
    intro hvariables
    have hnot := not_doomed_of_variableTargets hall hvariables
    have hall' : Config.start.feedAll (scanSource source names).names tokens = .ok c := by
      rw [hscan]
      exact hall
    have hviable := viable_of_feedAll hnames htokens hall' hnot
    rwa [hscan] at hviable
  cases complaint with
  | noExpression | noPunct | noKeyword => exact hrejects
  | noParameter => exact hrejects
  | badTarget span =>
    obtain ⟨left, hmem, hleft, hspan⟩ := exists_target_of_feed herror
    rcases exists_assignment_of_mem_targets hall hmem with hstart | ⟨xs, u, ys, d, hrest⟩
    · contradiction
    · obtain ⟨hsplit, hu, hd, htarget⟩ := hrest
      refine ⟨tokens, [], htokens, hpeek, ?_, xs, u, ys, d, left, hsplit, ?_⟩
      · rw [hscan]
        exact not_viable_of_doomed hall ⟨left, hmem, hleft⟩
      · rw [hscan]
        exact ⟨hu, hd, htarget, hleft, hspan⟩

/-- Syntax errors are told as early as possible, at the place where the parser is left. -/
theorem parse_rejects {source : String} {rest : TokenStream} {e : ParseError} (hnames : names.Made)
    (hlength : byteCount source.toList < maxOffset)
    (h : parse (TokenStream.ofString source names) = (.error (.grammatical e), rest)) :
    Rejects source names rest e := by
  rcases parse_cases (presents_ofString source hnames.consistent) with
    ⟨tree, left, hparse, -⟩ | ⟨e', left, hparse, hverdict, hleft⟩
  · rw [h] at hparse
    cases hparse
  rw [h] at hparse
  cases hparse
  rcases hrun : Config.start.run (scanSource source names).names (scanSource source names).ending
    (scanSource source names).tokens with ⟨result, tokens⟩
  rw [hrun] at hverdict hleft
  cases hverdict
  have hpeek : rest.peek = (.ok tokens.head?, rest) := by
    rcases hleft with ⟨l, hl⟩ | hpeek
    · contradiction
    · exact hpeek
  -- the verdict of the machine says where it stopped and on what
  rcases Config.run_error_cases hrun with ⟨l, hl⟩ |
    ⟨before, t, c, complaint, htokens, ht, hall, herror, he⟩ |
    ⟨offset, c, complaint, hending, hnil, hall, herror, he⟩
  · contradiction
  · cases he
    rw [ht] at hpeek
    exact rejects_token hnames htokens ht hpeek hall herror
  · cases he
    rw [hnil] at hpeek
    refine rejects_end hnames hlength ?_ hpeek hall herror
    rw [← hending]

/-- Between two arguments a comma is missing. -/
theorem parse_rejects_missing_comma :
    ∃ rest, parse (TokenStream.ofString "f(a b)" .fresh) =
        (.error (.grammatical ⟨.mismatch "`,`" "identifier `b`", ⟨4, 5⟩⟩), rest) ∧
      byteCount "f(a b)".toList < maxOffset ∧
      Rejects "f(a b)" .fresh rest ⟨.mismatch "`,`" "identifier `b`", ⟨4, 5⟩⟩ := by
  have herror : (parse (TokenStream.ofString "f(a b)" .fresh)).1 =
      .error (.grammatical ⟨.mismatch "`,`" "identifier `b`", ⟨4, 5⟩⟩) := by
    with_unfolding_all rfl
  have hlength : byteCount "f(a b)".toList < maxOffset := by decide
  have hparse : parse (TokenStream.ofString "f(a b)" .fresh) =
      (.error (.grammatical ⟨.mismatch "`,`" "identifier `b`", ⟨4, 5⟩⟩), _) :=
    Prod.ext herror rfl
  exact ⟨_, hparse, hlength, parse_rejects .fresh hlength hparse⟩

end Grammar

end LambdaScript
