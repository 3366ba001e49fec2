import LambdaScript.Proofs.Lexemes
/-!
# Which sources can be cut into tokens

A source can be followed character by character in three modes (`Mode`), without cutting it into
tokens. A character met in normal mode that belongs to no token is a stray. A lexer reports the
first stray, and if there is none, a string that is still open at the end; it accepts all other
sources (`lex_verdicts`).

Layout and lexemes begin and end in normal mode and hold no stray (`Layout.passes`,
`TokenKind.SpelledBy.passes`), so the verdict on a text is that on what stands behind them
(`Verdict.behind`).
-/

namespace LambdaScript

/-- What the next character may be part of. -/
inductive Mode where
  | normal | comment | string
deriving DecidableEq

namespace Mode

/-- The mode behind a character. -/
def after : Mode → Char → Mode
  | normal, c => if c = '#' then comment else if c = quoteMark then string else normal
  | comment, c => if c = '\n' then normal else comment
  | string, c => if c = quoteMark then normal else string

/-- The mode behind a text. -/
def afterAll (mode : Mode) (text : List Char) : Mode := text.foldl after mode

/-- Every character of the text that is met in normal mode is one of those of tokens and layout. -/
def Clean (mode : Mode) (text : List Char) : Prop :=
  ∀ before c after, text = before ++ c :: after → mode.afterAll before = normal →
    isLexical c = true

theorem afterAll_append (mode : Mode) (xs ys : List Char) :
    mode.afterAll (xs ++ ys) = (mode.afterAll xs).afterAll ys :=
  List.foldl_append

theorem clean_nil (mode : Mode) : mode.Clean [] := by
  intro before c after h
  simp at h

theorem clean_append {mode : Mode} {xs ys : List Char} (hxs : mode.Clean xs)
    (hys : (mode.afterAll xs).Clean ys) : mode.Clean (xs ++ ys) := by
  intro before c after hsplit hnormal
  rcases List.append_eq_append_iff.mp hsplit with ⟨more, rfl, hrest⟩ | ⟨more, hfirst, hrest⟩
  · rw [afterAll_append] at hnormal
    exact hys more c after hrest hnormal
  · cases more with
    | nil =>
      rw [List.append_nil] at hfirst
      subst hfirst
      exact hys [] c after (by simpa using hrest.symm) hnormal
    | cons d more =>
      obtain ⟨rfl, -⟩ := List.cons.inj hrest
      exact hxs before c more hfirst hnormal

/-- A text that does not change the mode. -/
theorem afterAll_eq {mode : Mode} {text : List Char} (h : ∀ c ∈ text, mode.after c = mode) :
    mode.afterAll text = mode := by
  induction text with
  | nil => rfl
  | cons c text ih =>
    obtain ⟨hc, htext⟩ := List.forall_mem_cons.mp h
    show (mode.after c).afterAll text = mode
    rw [hc, ih htext]

/-- Inside comments and strings every character is taken. -/
theorem clean_of_ne_normal {mode : Mode} {text : List Char} (hmode : mode ≠ normal)
    (h : ∀ c ∈ text, mode.after c = mode) : mode.Clean text := by
  rintro before c after rfl hnormal
  rw [afterAll_eq fun d hd => h d (List.mem_append_left _ hd)] at hnormal
  contradiction

theorem clean_singleton {mode : Mode} {c : Char} (h : mode = normal → isLexical c = true) :
    mode.Clean [c] := by
  intro before d after hsplit hnormal
  cases before with
  | nil =>
    cases hsplit
    exact h hnormal
  | cons e before => simp at hsplit

theorem clean_cons {mode : Mode} {c : Char} {text : List Char} :
    mode.Clean (c :: text) ↔
      (mode = normal → isLexical c = true) ∧ (mode.after c).Clean text := by
  constructor
  · intro h
    refine ⟨h [] c text rfl, ?_⟩
    rintro before d after rfl hnormal
    exact h (c :: before) d after rfl hnormal
  · rintro ⟨hc, htext⟩
    exact clean_append (clean_singleton hc) htext

instance decidableClean : (mode : Mode) → (text : List Char) → Decidable (mode.Clean text)
  | mode, [] => .isTrue (clean_nil mode)
  | mode, c :: text =>
    have := decidableClean (mode.after c) text
    decidable_of_iff _ clean_cons.symm

/-- Behind the mark of comments or a quote: the mode that it opens. -/
theorem opened {mode : Mode} {opening : Char} {inner : List Char}
    (hopening : isLexical opening = true) (hmode : mode ≠ normal)
    (hopens : normal.after opening = mode) (hinner : ∀ c ∈ inner, mode.after c = mode) :
    normal.Clean (opening :: inner) ∧ normal.afterAll (opening :: inner) = mode := by
  constructor
  · rw [clean_cons, hopens]
    exact ⟨fun _ => hopening, clean_of_ne_normal hmode hinner⟩
  · show (normal.after opening).afterAll inner = mode
    rw [hopens, afterAll_eq hinner]

theorem comment_after {line : List Char} (h : '\n' ∉ line) :
    ∀ c ∈ line, comment.after c = comment := by
  intro c hc
  apply if_neg
  rintro rfl
  exact h hc

theorem string_after {inner : List Char} (h : quoteMark ∉ inner) :
    ∀ c ∈ inner, string.after c = string := by
  intro c hc
  apply if_neg
  rintro rfl
  exact h hc

theorem open_comment {line : List Char} (h : '\n' ∉ line) :
    normal.Clean ('#' :: line) ∧ normal.afterAll ('#' :: line) = comment :=
  opened (by decide) (by decide) rfl (comment_after h)

theorem open_string {inner : List Char} (h : quoteMark ∉ inner) :
    normal.Clean (quoteMark :: inner) ∧ normal.afterAll (quoteMark :: inner) = string :=
  opened (by decide) (by decide) rfl (string_after h)

/-! ## Texts between tokens -/

/-- The text begins and ends in normal mode, and nothing in it is a stray. -/
def Passes (text : List Char) : Prop := normal.Clean text ∧ normal.afterAll text = normal

namespace Passes

variable {xs ys : List Char}

theorem afterAll (h : Passes xs) (ys : List Char) :
    normal.afterAll (xs ++ ys) = normal.afterAll ys := by
  rw [afterAll_append, h.2]

theorem clean (h : Passes xs) (hys : normal.Clean ys) : normal.Clean (xs ++ ys) := by
  refine clean_append h.1 ?_
  rw [h.2]
  exact hys

/-- Characters that open neither a comment nor a string. -/
theorem of_plain (h : ∀ c ∈ xs, isLexical c = true ∧ c ≠ '#' ∧ c ≠ quoteMark) : Passes xs := by
  refine ⟨?_, afterAll_eq fun c hc => ?_⟩
  · rintro before c after rfl -
    exact (h c (List.mem_append_right _ List.mem_cons_self)).1
  · obtain ⟨-, hhash, hquote⟩ := h c hc
    rw [Mode.after, if_neg hhash, if_neg hquote]

/-- What is opened is closed again. -/
theorem closed {mode : Mode} {text : List Char} {closing : Char} (hmode : mode ≠ normal)
    (htext : normal.Clean text ∧ normal.afterAll text = mode)
    (hcloses : mode.after closing = normal) : Passes (text ++ [closing]) := by
  obtain ⟨hclean, rfl⟩ := htext
  exact ⟨clean_append hclean (clean_singleton fun h => absurd h hmode),
    (afterAll_append _ _ _).trans hcloses⟩

end Passes
end Mode

/-! ## Layout and lexemes -/

theorem passes_blank {c : Char} (hc : isBlank c = true) : Mode.Passes [c] := by
  apply Mode.Passes.of_plain
  intro d hd
  obtain rfl := List.mem_singleton.mp hd
  rcases Lexer.isBlank_cases hc with rfl | rfl | rfl | rfl <;> decide

theorem passes_comment {line : List Char} (h : '\n' ∉ line) :
    Mode.Passes ('#' :: line ++ ['\n']) :=
  .closed (by decide) (Mode.open_comment h) rfl

/-- Layout begins in normal mode and holds no stray; only the last layout of a source can end in a
comment. -/
theorem Layout.clean {last : Prop} {text : List Char} (h : Layout last text) :
    Mode.normal.Clean text ∧
      (Mode.normal.afterAll text = .normal ∨ last ∧ Mode.normal.afterAll text = .comment) := by
  induction h with
  | nil => exact ⟨Mode.clean_nil _, .inl rfl⟩
  | @blank c text hc _ ih =>
    have hfirst := passes_blank hc
    refine ⟨hfirst.clean ih.1, ?_⟩
    rw [show c :: text = [c] ++ text from rfl, hfirst.afterAll]
    exact ih.2
  | @comment line text hline _ ih =>
    have hfirst := passes_comment hline
    have hsplit : '#' :: (line ++ '\n' :: text) = '#' :: line ++ ['\n'] ++ text := by simp
    rw [hsplit, hfirst.afterAll]
    exact ⟨hfirst.clean ih.1, ih.2⟩
  | lastComment hlast hline =>
    obtain ⟨hclean, hmode⟩ := Mode.open_comment hline
    exact ⟨hclean, .inr ⟨hlast, hmode⟩⟩

theorem Layout.passes {gap : List Char} (h : Layout False gap) : Mode.Passes gap := by
  obtain ⟨hclean, hmode | ⟨hlast, -⟩⟩ := h.clean
  · exact ⟨hclean, hmode⟩
  · exact hlast.elim

/-- Characters of one class, where all characters of the class are those of tokens. -/
theorem passes_class {p : Char → Bool} {lexeme : List Char} (h : ∀ c ∈ lexeme, p c = true)
    (hlexical : ∀ c, p c = true → isLexical c = true) (hhash : p '#' = false)
    (hquote : p quoteMark = false) : Mode.Passes lexeme := by
  apply Mode.Passes.of_plain
  intro c hc
  have hclass := h c hc
  refine ⟨hlexical c hclass, ?_, ?_⟩
  · rintro rfl
    rw [hhash] at hclass
    contradiction
  · rintro rfl
    rw [hquote] at hclass
    contradiction

theorem isLexical_of_isWordChar (c : Char) (h : isWordChar c = true) : isLexical c = true := by
  simp [isLexical, h]

theorem TokenKind.SpelledBy.passes {names : Interner} {kind : TokenKind} {lexeme : List Char}
    (h : kind.SpelledBy names lexeme) : Mode.Passes lexeme := by
  cases kind with
  | number value =>
    refine passes_class h.2.1 (fun c hc => isLexical_of_isWordChar c ?_) (by decide) (by decide)
    rw [isWordChar, hc, Bool.or_true]
  | string contents =>
    obtain ⟨inner, rfl, hinner, -⟩ := h
    exact .closed (by decide) (Mode.open_string hinner) rfl
  | identifier name =>
    obtain ⟨⟨c, run, rfl, hc, hrun⟩, -⟩ := h
    have hall : ∀ d ∈ c :: run, isWordChar d = true :=
      List.forall_mem_cons.mpr ⟨Lexer.isWordChar_of_isWordStart hc, hrun⟩
    exact passes_class hall isLexical_of_isWordChar (by decide) (by decide)
  | keyword word =>
    obtain ⟨c, run, hspelling, -, hall⟩ := Lexer.exists_spelling_cons word
    obtain rfl : lexeme = c :: run := h.trans hspelling
    exact passes_class hall isLexical_of_isWordChar (by decide) (by decide)
  | punct mark =>
    obtain rfl : lexeme = [mark.char] := h
    apply Mode.Passes.of_plain
    intro c hc
    obtain rfl := List.mem_singleton.mp hc
    cases mark <;> decide
  | operator spelling =>
    refine passes_class h.2.1 (fun c hc => ?_) (by decide) (by decide)
    simp [isLexical, hc]

/-! ## Verdicts -/

/-- The first stray of a text, and what stands before it. -/
structure FirstStray (text before : List Char) (c : Char) : Prop where
  split : ∃ after, text = before ++ c :: after
  clean : Mode.normal.Clean before
  normal : Mode.normal.afterAll before = .normal
  stray : isLexical c = false

/-- What is wrong with a text that begins at `p`. -/
inductive Verdict (p : Position) (text : List Char) : Except LexError Unit → Prop where
  | stray {before : List Char} {c : Char} (h : FirstStray text before c) :
      Verdict p text (.error (CharStream.fail ⟨[], p.afterAll before⟩ (.invalidCharacter c)))
  | unclosed (hclean : Mode.normal.Clean text) (hmode : Mode.normal.afterAll text = .string) :
      Verdict p text (.error (CharStream.fail ⟨[], p.afterAll text⟩ .unterminatedString))
  | nothing (hclean : Mode.normal.Clean text) (hmode : Mode.normal.afterAll text ≠ .string) :
      Verdict p text (.ok ())

/-- A text has one first stray. -/
theorem FirstStray.unique {text before before' : List Char} {c c' : Char}
    (h : FirstStray text before c) (h' : FirstStray text before' c') :
    before = before' ∧ c = c' := by
  obtain ⟨after, rfl⟩ := h.split
  obtain ⟨after', hsplit⟩ := h'.split
  rcases List.append_eq_append_iff.mp hsplit with ⟨more, rfl, hrest⟩ | ⟨more, rfl, hrest⟩
  · cases more with
    | nil => simp_all
    | cons d more =>
      obtain ⟨rfl, -⟩ := List.cons.inj hrest
      have hlexical := h'.clean before c more rfl h.normal
      rw [h.stray] at hlexical
      contradiction
  · cases more with
    | nil => simp_all
    | cons d more =>
      obtain ⟨rfl, -⟩ := List.cons.inj hrest
      have hlexical := h.clean before' c' more rfl h'.normal
      rw [h'.stray] at hlexical
      contradiction

theorem FirstStray.not_clean {text before : List Char} {c : Char} (h : FirstStray text before c) :
    ¬Mode.normal.Clean text := by
  obtain ⟨after, rfl⟩ := h.split
  intro hclean
  have hlexical := hclean before c after rfl h.normal
  rw [h.stray] at hlexical
  contradiction

/-- A text with a stray has a first one. -/
theorem exists_firstStray {text : List Char} (h : ¬Mode.normal.Clean text) :
    ∃ before c, FirstStray text before c := by
  induction text using List.reverseRecOn with
  | nil => exact absurd (Mode.clean_nil _) h
  | append_singleton text c ih =>
    by_cases hclean : Mode.normal.Clean text
    · have hlast : ¬(Mode.normal.afterAll text = .normal → isLexical c = true) :=
        fun hc => h (Mode.clean_append hclean (Mode.clean_singleton hc))
      obtain ⟨hnormal, hc⟩ := Classical.not_imp.mp hlast
      exact ⟨text, c, ⟨[], rfl⟩, hclean, hnormal, by simpa using hc⟩
    · obtain ⟨before, d, hfirst⟩ := ih hclean
      obtain ⟨after, rfl⟩ := hfirst.split
      exact ⟨before, d, ⟨after ++ [c], by simp⟩, hfirst.clean, hfirst.normal, hfirst.stray⟩

namespace Verdict

variable {p : Position} {text : List Char} {e e' : Except LexError Unit}

theorem unique (h : Verdict p text e) (h' : Verdict p text e') : e = e' := by
  cases h with
  | stray hstray =>
    cases h' with
    | stray hstray' =>
      obtain ⟨rfl, rfl⟩ := hstray.unique hstray'
      rfl
    | unclosed hclean | nothing hclean => exact absurd hclean hstray.not_clean
  | unclosed hclean hmode =>
    cases h' with
    | stray hstray => exact absurd hclean hstray.not_clean
    | unclosed => rfl
    | nothing _ hmode' => exact absurd hmode hmode'
  | nothing hclean hmode =>
    cases h' with
    | stray hstray => exact absurd hclean hstray.not_clean
    | unclosed _ hmode' => exact absurd hmode' hmode
    | nothing => rfl

/-- The verdict on a text is that on what stands behind layout and lexemes. -/
theorem behind {gap : List Char} (hgap : Mode.Passes gap) (h : Verdict (p.afterAll gap) text e) :
    Verdict p (gap ++ text) e := by
  cases h with
  | @stray before c hstray =>
    rw [← Position.afterAll_append]
    obtain ⟨after, rfl⟩ := hstray.split
    exact .stray ⟨⟨after, by simp⟩, hgap.clean hstray.clean,
      (hgap.afterAll before).trans hstray.normal, hstray.stray⟩
  | unclosed hclean hmode =>
    rw [← Position.afterAll_append]
    exact .unclosed (hgap.clean hclean) ((hgap.afterAll text).trans hmode)
  | nothing hclean hmode =>
    exact .nothing (hgap.clean hclean) (by rwa [hgap.afterAll])

end Verdict

/-- The place behind a text that is short enough for its bytes to be an offset. -/
theorem CharStream.fail_start {text : List Char} (h : byteCount text ≤ maxOffset)
    (fault : LexFault) : CharStream.fail ⟨[], Position.start.afterAll text⟩ fault =
      ⟨fault, 1 + text.count '\n', (lastLine text).length, byteCount text⟩ := by
  rw [Position.afterAll_start, fail, offset]
  simp only [clampOffset, Nat.min_eq_left h]

variable {text : List Char} {line column offset : Nat}

theorem verdict_stray_iff (hsize : byteCount text ≤ maxOffset) {c : Char} :
    Verdict .start text (.error ⟨.invalidCharacter c, line, column, offset⟩) ↔
      ∃ before, FirstStray text before c ∧ line = 1 + before.count '\n' ∧
        column = (lastLine before).length ∧ offset = byteCount before := by
  have hbefore : ∀ before d, FirstStray text before d → byteCount before ≤ maxOffset := by
    intro before d h
    obtain ⟨after, rfl⟩ := h.split
    rw [byteCount_append] at hsize
    omega
  constructor
  · intro h
    generalize he : Except.error (LexError.mk (.invalidCharacter c) line column offset) = e at h
    cases h with
    | @stray before d h =>
      rw [CharStream.fail_start (hbefore before d h)] at he
      cases he
      exact ⟨before, h, rfl, rfl, rfl⟩
    | unclosed | nothing => cases he
  · rintro ⟨before, h, rfl, rfl, rfl⟩
    rw [← CharStream.fail_start (hbefore before c h)]
    exact .stray h

theorem verdict_unclosed_iff (hsize : byteCount text ≤ maxOffset) :
    Verdict .start text (.error ⟨.unterminatedString, line, column, offset⟩) ↔
      Mode.normal.Clean text ∧ Mode.normal.afterAll text = .string ∧
        line = 1 + text.count '\n' ∧ column = (lastLine text).length ∧
        offset = byteCount text := by
  constructor
  · intro h
    generalize he : Except.error (LexError.mk .unterminatedString line column offset) = e at h
    cases h with
    | unclosed hclean hmode =>
      rw [CharStream.fail_start hsize] at he
      cases he
      exact ⟨hclean, hmode, rfl, rfl, rfl⟩
    | stray | nothing => cases he
  · rintro ⟨hclean, hmode, rfl, rfl, rfl⟩
    rw [← CharStream.fail_start hsize]
    exact .unclosed hclean hmode

theorem verdict_ok_iff {p : Position} :
    Verdict p text (.ok ()) ↔
      Mode.normal.Clean text ∧ Mode.normal.afterAll text ≠ .string := by
  constructor
  · rintro ⟨⟩
    exact ⟨‹_›, ‹_›⟩
  · rintro ⟨hclean, hmode⟩
    exact .nothing hclean hmode

/-- How the tokens of a source end is the verdict on it. -/
theorem Lexer.verdict_scan {l : Lexer} (hnames : l.names.Consistent) :
    Verdict l.chars.position l.chars.rest (l.scan.ending.map fun _ => ()) := by
  fun_induction scan l with
  | case1 l t m hread more ih =>
    obtain ⟨gap, rest, hsource, hgap, hmeets⟩ := exists_meets hnames
    have hnumbers := numbers_read hnames
    rw [hread] at hmeets hnumbers
    rw [hsource]
    apply Verdict.behind hgap.passes
    generalize l.chars.position.afterAll gap = p at hmeets
    cases hmeets with
    | token hlexeme _ => exact .behind hlexeme.passes (ih hnumbers.consistent)
  | case2 l m hread =>
    obtain ⟨gap, rest, hsource, hgap, hmeets⟩ := exists_meets hnames
    rw [hread] at hmeets
    rw [hsource]
    apply Verdict.behind hgap.passes
    cases hmeets with
    | stop hlast =>
      obtain ⟨hclean, hmode⟩ := hlast.clean
      refine .nothing hclean ?_
      rcases hmode with hmode | ⟨-, hmode⟩ <;> rw [hmode] <;> decide
  | case3 l e m hread =>
    obtain ⟨gap, rest, hsource, hgap, hmeets⟩ := exists_meets hnames
    rw [hread] at hmeets
    rw [hsource]
    apply Verdict.behind hgap.passes
    generalize l.chars.position.afterAll gap = p at hmeets
    cases hmeets with
    | @invalid c tail _ hc =>
      have hstray : FirstStray (c :: tail) [] c := ⟨⟨tail, rfl⟩, Mode.clean_nil _, rfl, hc⟩
      exact .stray hstray
    | unterminated hopen =>
      obtain ⟨hclean, hmode⟩ := Mode.open_string hopen
      exact .unclosed hclean hmode

/-! ## Sources -/

theorem verdict_lex (source : String) {names : Interner} (hnames : names.Consistent) :
    Verdict .start source.toList ((lex source names).1.map fun _ => ()) := by
  have hlex : (lex source names).1.map (fun _ => ()) =
      (scanSource source names).ending.map fun _ => () := by
    rw [lex_eq_scan]
    cases (scanSource source names).ending <;> rfl
  rw [hlex]
  exact Lexer.verdict_scan (l := ⟨.ofString source, names⟩) hnames

theorem lex_error_iff {source : String} {names : Interner} (hnames : names.Consistent)
    (e : LexError) :
    (lex source names).1 = .error e ↔ Verdict .start source.toList (.error e) := by
  have hverdict := verdict_lex source hnames
  constructor
  · intro h
    rw [h] at hverdict
    exact hverdict
  · intro h
    have heq := hverdict.unique h
    cases hresult : (lex source names).1 with
    | error f =>
      rw [hresult] at heq
      cases heq
      rfl
    | ok tokens =>
      rw [hresult] at heq
      contradiction

theorem lex_ok_iff {source : String} {names : Interner} (hnames : names.Consistent) :
    (∃ tokens, (lex source names).1 = .ok tokens) ↔ Verdict .start source.toList (.ok ()) := by
  have hverdict := verdict_lex source hnames
  constructor
  · rintro ⟨tokens, h⟩
    rw [h] at hverdict
    exact hverdict
  · intro h
    have heq := hverdict.unique h
    cases hresult : (lex source names).1 with
    | error e =>
      rw [hresult] at heq
      contradiction
    | ok tokens => exact ⟨tokens, rfl⟩

/-- A source that has a stray is rejected for the first one; if it has none but ends inside a
string, it is rejected at its end; all other sources are accepted. -/
theorem lex_verdicts {source : String} {names : Interner} (hnames : names.Made)
    (hsize : byteCount source.toList < maxOffset) :
    ((∃ e c, (lex source names).1 = .error e ∧ e.fault = .invalidCharacter c) ↔
      ¬Mode.normal.Clean source.toList) ∧
    (∀ c line column offset,
      (lex source names).1 = .error ⟨.invalidCharacter c, line, column, offset⟩ ↔
        ∃ before, FirstStray source.toList before c ∧ line = 1 + before.count '\n' ∧
          column = (lastLine before).length ∧ offset = byteCount before) ∧
    (∀ line column offset,
      (lex source names).1 = .error ⟨.unterminatedString, line, column, offset⟩ ↔
        Mode.normal.Clean source.toList ∧ Mode.normal.afterAll source.toList = .string ∧
          line = 1 + source.toList.count '\n' ∧ column = (lastLine source.toList).length ∧
          offset = byteCount source.toList) ∧
    ((∃ tokens, (lex source names).1 = .ok tokens) ↔
      Mode.normal.Clean source.toList ∧ Mode.normal.afterAll source.toList ≠ .string) := by
  have hconsistent := hnames.consistent
  have hstray : ∀ c line column offset,
      (lex source names).1 = .error ⟨.invalidCharacter c, line, column, offset⟩ ↔ _ :=
    fun _ _ _ _ => (lex_error_iff hconsistent _).trans (verdict_stray_iff (Nat.le_of_lt hsize))
  refine ⟨⟨?_, fun h => ?_⟩, hstray, ?_, ?_⟩
  · rintro ⟨⟨fault, line, column, offset⟩, c, hlex, rfl⟩
    obtain ⟨before, h, -⟩ := (hstray c line column offset).mp hlex
    exact h.not_clean
  · obtain ⟨before, c, h⟩ := exists_firstStray h
    exact ⟨_, c, (hstray c _ _ _).mpr ⟨before, h, rfl, rfl, rfl⟩, rfl⟩
  · intro line column offset
    exact (lex_error_iff hconsistent _).trans (verdict_unclosed_iff (Nat.le_of_lt hsize))
  · exact (lex_ok_iff hconsistent).trans verdict_ok_iff

/-- Question marks inside a comment and a string are taken, the third one is reported; without the
closing quote the string is. -/
theorem lex_verdicts_third_question_mark :
    (lex "# ?\n\x22é\n?#\x22 a ? é" .fresh).1 = .error ⟨.invalidCharacter '?', 3, 6, 14⟩ ∧
    (lex "# ?\n\x22é\n?#" .fresh).1 = .error ⟨.unterminatedString, 3, 2, 10⟩ := by
  obtain ⟨-, hstray, -⟩ := @lex_verdicts "# ?\n\x22é\n?#\x22 a ? é" .fresh .fresh (by decide)
  obtain ⟨-, -, hopen, -⟩ := @lex_verdicts "# ?\n\x22é\n?#" .fresh .fresh (by decide)
  refine ⟨(hstray _ _ _ _).mpr ⟨"# ?\n\x22é\n?#\x22 a ".toList, ?_, ?_⟩, (hopen _ _ _).mpr ?_⟩
  · exact ⟨⟨" é".toList, by decide⟩, by decide, by decide, by decide⟩
  · decide
  · decide

end LambdaScript
