import LambdaScript.Proofs.Scanning
/-!
# A token depends on its own text

What the lexer makes of a token is decided by the text up to the end of the token and by the
character behind it, which must not belong to the token (`Lexer.MayFollow`). A source can therefore
be cut off behind any token and go on differently, with a blank in front (`Lexer.scan_append`).

Punctuation and reserved words can be written down again (`Lexer.scan_text`), so that a list of them
is the continuation of a source.
-/

namespace LambdaScript

/-! ## Runs of characters -/

namespace CharStream

/-- A run ends at the first character without the property. -/
theorem eatWhile_append {p : Char → Bool} {run rest : List Char} (position : Position)
    (hrun : ∀ c ∈ run, p c = true) (hstop : ∀ c, rest.head? = some c → p c = false) :
    eatWhile p ⟨run ++ rest, position⟩ = (run, ⟨rest, position.afterAll run⟩) := by
  have hnone : rest.takeWhile p = [] ∧ rest.dropWhile p = rest := by
    cases rest with
    | nil => exact ⟨rfl, rfl⟩
    | cons c rest => simp [hstop c rfl]
  simp only [eatWhile, List.takeWhile_append_of_pos hrun, List.dropWhile_append_of_pos hrun,
    hnone.1, hnone.2, List.append_nil]

/-- What a run is. -/
theorem eatWhile_spec {p : Char → Bool} {s s' : CharStream} {run : List Char}
    (h : s.eatWhile p = (run, s')) :
    s.rest = run ++ s'.rest ∧ (∀ c ∈ run, p c = true) ∧
      (∀ c, s'.rest.head? = some c → p c = false) ∧ s'.position = s.position.afterAll run := by
  cases h
  refine ⟨List.takeWhile_append_dropWhile.symm, ?_, fun c hc => ?_, rfl⟩
  · exact List.all_eq_true.mp List.all_takeWhile
  · have := List.head?_dropWhile_not p s.rest
    rw [hc] at this
    simpa using this

/-- A line ends with its line feed. -/
theorem skipLine_append {line : List Char} (rest : List Char) (position : Position)
    (hline : '\n' ∉ line) : skipLine ⟨line ++ '\n' :: rest, position⟩ =
      ⟨rest, ⟨position.bytes + byteCount line + 1, position.line + 1, 0⟩⟩ := by
  have hrun : ∀ c ∈ line, (c != '\n') = true := by
    intro c hc
    simpa using fun heq : c = '\n' => hline (heq ▸ hc)
  simp [skipLine, List.takeWhile_append_of_pos hrun, List.dropWhile_append_of_pos hrun]

/-- The last line of a source ends with it. -/
theorem skipLine_of_not_mem {s : CharStream} (h : '\n' ∉ s.rest) : s.skipLine =
    ⟨[], { s.position with
      bytes := s.position.bytes + byteCount s.rest
      column := s.position.column + s.rest.length }⟩ := by
  have hrun : ∀ c ∈ s.rest, (c != '\n') = true := by
    intro c hc
    simpa using fun heq : c = '\n' => h (heq ▸ hc)
  have htake : (s.rest ++ []).takeWhile (· != '\n') = s.rest ++ [] :=
    List.takeWhile_append_of_pos hrun
  have hdrop : (s.rest ++ []).dropWhile (· != '\n') = [] := List.dropWhile_append_of_pos hrun
  rw [List.append_nil] at htake hdrop
  simp only [skipLine, htake, hdrop]

end CharStream

namespace Lexer

/-- This text may stand behind a token in place of the other: it begins with a blank, or with the
same character. -/
def MayFollow (rest text : List Char) : Prop :=
  ∀ c, text.head? = some c → isBlank c = true ∨ rest.head? = some c

/-- A step of the lexer is decided by the text that it takes. -/
def Local {α : Type} (step : Lexer → Except LexError α × Lexer) (l l' : Lexer) (a : α) : Prop :=
  ∃ text, text ≠ [] ∧ l.chars.rest = text ++ l'.chars.rest ∧ ∀ more, MayFollow l'.chars.rest more →
    step ⟨⟨text ++ more, l.chars.position⟩, l.names⟩ =
      (.ok a, ⟨⟨more, l'.chars.position⟩, l'.names⟩)

/-- A run of characters none of which is a blank. -/
theorem eatWhile_local {p : Char → Bool} {s s' : CharStream} {run : List Char}
    (hblank : ∀ c, isBlank c = true → p c = false) (h : s.eatWhile p = (run, s')) :
    s.rest = run ++ s'.rest ∧ ∀ more, MayFollow s'.rest more →
      CharStream.eatWhile p ⟨run ++ more, s.position⟩ = (run, ⟨more, s'.position⟩) := by
  obtain ⟨hrest, hrun, hstop, hposition⟩ := CharStream.eatWhile_spec h
  refine ⟨hrest, fun more hmore => ?_⟩
  rw [hposition]
  refine CharStream.eatWhile_append s.position hrun fun c hc => ?_
  rcases hmore c hc with hc | hc
  · exact hblank c hc
  · exact hstop c hc

theorem isBlank_cases {c : Char} (h : isBlank c = true) :
    c = ' ' ∨ c = '\t' ∨ c = '\n' ∨ c = '\r' := by
  simpa [isBlank, or_assoc] using h

theorem not_isDigit_of_isBlank (c : Char) (h : isBlank c = true) : isDigit c = false := by
  rcases isBlank_cases h with rfl | rfl | rfl | rfl <;> decide

theorem not_isWordChar_of_isBlank (c : Char) (h : isBlank c = true) : isWordChar c = false := by
  rcases isBlank_cases h with rfl | rfl | rfl | rfl <;> decide

theorem not_isOperatorChar_of_isBlank (c : Char) (h : isBlank c = true) :
    isOperatorChar c = false := by
  rcases isBlank_cases h with rfl | rfl | rfl | rfl <;> decide

/-- A step that takes a run and makes something of it. -/
theorem local_run {α : Type} {step : Lexer → Except LexError α × Lexer} {l l' : Lexer} {a : α}
    {c : Char} {tail : List Char} (p : Char → Bool) (make : List Char → Interner → α × Interner)
    (hstep : ∀ l, step l = (.ok (make (l.chars.eatWhile p).1 l.names).1,
      ⟨(l.chars.eatWhile p).2, (make (l.chars.eatWhile p).1 l.names).2⟩))
    (hblank : ∀ c, isBlank c = true → p c = false) (hrest : l.chars.rest = c :: tail)
    (hc : p c = true) (h : step l = (.ok a, l')) : Local step l l' a := by
  rcases heat : l.chars.eatWhile p with ⟨run, chars⟩
  obtain ⟨htext, hlocal⟩ := eatWhile_local hblank heat
  have hrun : run = l.chars.rest.takeWhile p := (congrArg Prod.fst heat).symm
  rw [hstep, heat] at h
  cases h
  refine ⟨run, ?_, htext, fun more hmore => ?_⟩
  · rw [hrun, hrest, List.takeWhile_cons_of_pos hc]
    exact List.cons_ne_nil _ _
  · rw [hstep, hlocal more hmore]

/-- The characters of a string: all up to the next quote. -/
theorem local_readString {l l' : Lexer} {kind : TokenKind} {tail : List Char}
    (hrest : l.chars.rest = quoteMark :: tail) (h : l.readString = (.ok kind, l')) :
    Local readString l l' kind := by
  have hnext : l.chars.next.2 = ⟨tail, l.chars.position.after quoteMark⟩ := by
    simp [CharStream.next, hrest]
  rcases heat : CharStream.eatWhile (· != quoteMark) ⟨tail, l.chars.position.after quoteMark⟩ with
    ⟨contents, chars⟩
  obtain ⟨htail, hcontents, hstop, hposition⟩ := CharStream.eatWhile_spec heat
  change tail = contents ++ chars.rest at htail
  change chars.position = (l.chars.position.after quoteMark).afterAll contents at hposition
  rw [readString, hnext, heat] at h
  -- a string that is not closed is an error
  rcases hchars : chars.rest with _ | ⟨d, rest⟩
  · simp only [hchars] at h
    cases h
  have hd : d = quoteMark := by simpa [hchars] using hstop d
  subst hd
  simp only [hchars] at h
  cases h
  have hbehind : chars.next.2 = ⟨rest, chars.position.after quoteMark⟩ := by
    simp [CharStream.next, hchars]
  refine ⟨quoteMark :: (contents ++ [quoteMark]), List.cons_ne_nil _ _, ?_, fun more _ => ?_⟩
  · show l.chars.rest = _ ++ chars.next.2.rest
    rw [hbehind, hrest, htail, hchars, List.cons_append, List.append_assoc, List.singleton_append]
  · have hrun : CharStream.eatWhile (· != quoteMark)
        ⟨contents ++ quoteMark :: more, l.chars.position.after quoteMark⟩ = (contents, _) :=
      CharStream.eatWhile_append (l.chars.position.after quoteMark) hcontents (by simp)
    show readString _ = (_, ⟨⟨more, chars.next.2.position⟩, _⟩)
    rw [hbehind, hposition]
    simp [readString, CharStream.next, hrun]

/-- A token of which the first character is known. -/
theorem local_readKind {l l' : Lexer} {kind : TokenKind} {c : Char} {tail : List Char}
    (hrest : l.chars.rest = c :: tail) (h : l.readKind c = (.ok kind, l')) :
    Local (readKind · c) l l' kind := by
  unfold readKind at h ⊢
  -- in the order in which the lexer asks: quote, digit, word, punctuation, operator
  by_cases hquote : c = quoteMark
  · subst hquote
    simp only [if_pos] at h ⊢
    exact local_readString hrest h
  by_cases hdigit : isDigit c = true
  · simp only [hquote, hdigit, if_false, if_true] at h ⊢
    exact local_run isDigit (fun run names => (.number (Decimal.ofDigits run), names))
      (fun _ => rfl) not_isDigit_of_isBlank hrest hdigit h
  by_cases hword : isWordStart c = true
  · simp only [hquote, hdigit, hword, if_false, if_true, Bool.false_eq_true] at h ⊢
    refine local_run isWordChar (fun run names =>
      (Keyword.ofSpelling? (String.ofList run)).elim
        ((names.intern (String.ofList run)).map .identifier id)
        fun keyword => (.keyword keyword, names)) (fun l => ?_)
      not_isWordChar_of_isBlank hrest (by simp [isWordChar, hword]) h
    cases hspelling : Keyword.ofSpelling? (String.ofList (l.chars.eatWhile isWordChar).1) with
    | none => simp [readWord, hspelling]
    | some keyword => simp [readWord, hspelling]
  simp only [hquote, hdigit, hword, if_false, Bool.false_eq_true] at h ⊢
  cases hpunct : Punct.ofChar? c with
  | some mark =>
    rw [hpunct] at h
    cases h
    have hnext : l.chars.next.2 = ⟨tail, l.chars.position.after c⟩ := by
      simp [CharStream.next, hrest]
    refine ⟨[c], List.cons_ne_nil c [], ?_, fun more _ => ?_⟩
    · rw [hrest, hnext, List.singleton_append]
    · rw [hnext]
      rfl
  | none =>
    rw [hpunct] at h
    simp only at h ⊢
    by_cases hoperator : isOperatorChar c = true
    · simp only [hoperator, if_true] at h ⊢
      exact local_run isOperatorChar (fun run names =>
        (names.intern (String.ofList run)).map .operator id) (fun _ => rfl)
        not_isOperatorChar_of_isBlank hrest hoperator h
    · rw [if_neg hoperator] at h
      cases h

/-! ## Whole tokens -/

theorem read_of_comment {l : Lexer} {blanks tail : List Char} {chars : CharStream}
    (heat : l.chars.eatWhile isBlank = (blanks, chars)) (h : chars.rest = '#' :: tail) :
    l.read = read ⟨chars.skipLine, l.names⟩ := by
  obtain rfl : (l.chars.eatWhile isBlank).2 = chars := congrArg Prod.snd heat
  rw [read]
  split
  · next hnil =>
    rw [h] at hnil
    contradiction
  · next c more hcons =>
    rw [h] at hcons
    cases hcons
    rfl

theorem read_of_kind {l l' : Lexer} {blanks tail : List Char} {chars : CharStream} {c : Char}
    {kind : TokenKind} (heat : l.chars.eatWhile isBlank = (blanks, chars))
    (h : chars.rest = c :: tail) (hc : c ≠ '#')
    (hkind : readKind ⟨chars, l.names⟩ c = (.ok kind, l')) :
    l.read = (.ok (some ⟨kind, ⟨chars.offset, l'.chars.offset⟩⟩), l') := by
  obtain rfl : (l.chars.eatWhile isBlank).2 = chars := congrArg Prod.snd heat
  rw [read]
  split
  · next hnil =>
    rw [h] at hnil
    contradiction
  · next c' more hcons =>
    rw [h] at hcons
    cases hcons
    rw [if_neg hc, hkind]

/-- Nothing is read at the end of a source. -/
theorem read_nil (position : Position) (names : Interner) :
    read ⟨⟨[], position⟩, names⟩ = (.ok none, ⟨⟨[], position⟩, names⟩) := by
  rw [read]
  rfl

/-- Blanks, and what stands behind them. -/
theorem eatWhile_blank_append {s behind : CharStream} {blanks : List Char}
    (h : s.eatWhile isBlank = (blanks, behind)) {c : Char} (hc : isBlank c = false)
    (tail : List Char) :
    CharStream.eatWhile isBlank ⟨blanks ++ c :: tail, s.position⟩ =
      (blanks, ⟨c :: tail, behind.position⟩) := by
  obtain ⟨-, hblanks, -, hposition⟩ := CharStream.eatWhile_spec h
  rw [hposition]
  refine CharStream.eatWhile_append s.position hblanks fun d hd => ?_
  cases hd
  exact hc

/-- A comment, and what stands behind it. -/
theorem skipLine_local {s : CharStream} (h : s.skipLine.rest ≠ []) :
    ∃ line, s.rest = line ++ '\n' :: s.skipLine.rest ∧ ∀ more,
      CharStream.skipLine ⟨line ++ '\n' :: more, s.position⟩ = ⟨more, s.skipLine.position⟩ := by
  by_cases hfeed : '\n' ∈ s.rest
  · obtain ⟨rest, position⟩ := s
    obtain ⟨line, tail, rfl, hline⟩ := List.eq_append_cons_of_mem hfeed
    refine ⟨line, ?_, fun more => ?_⟩
    · rw [CharStream.skipLine_append tail position hline]
    · rw [CharStream.skipLine_append more position hline,
        CharStream.skipLine_append tail position hline]
  · rw [CharStream.skipLine_of_not_mem hfeed] at h
    exact absurd rfl h

/-- Reading is local where a comment stands in front, if it is behind the comment. -/
theorem local_read_of_comment {l l' : Lexer} {a : Option Token} {blanks tail : List Char}
    {chars : CharStream} (heat : l.chars.eatWhile isBlank = (blanks, chars))
    (hcons : chars.rest = '#' :: tail) (h : Local read ⟨chars.skipLine, l.names⟩ l' a) :
    Local read l l' a := by
  obtain ⟨text, htext, hskip, hlocal⟩ := h
  change chars.skipLine.rest = text ++ l'.chars.rest at hskip
  obtain ⟨line, hline, hskips⟩ := skipLine_local (s := chars) (by simp [hskip, htext])
  rw [hskip] at hline
  have hrest := (CharStream.eatWhile_spec heat).1
  -- the line that is skipped begins with the mark of the comment
  obtain ⟨word, rfl⟩ : ∃ word, line = '#' :: word := by
    rw [hcons] at hline
    cases line with
    | nil => exact absurd (List.cons.inj hline).1 (by decide)
    | cons d word => exact ⟨word, by rw [(List.cons.inj hline).1]⟩
  refine ⟨blanks ++ '#' :: (word ++ '\n' :: text), by simp, ?_, fun more hmore => ?_⟩
  · rw [hrest, hline]
    simp
  · have hblank := eatWhile_blank_append heat (c := '#') (by decide)
      (word ++ '\n' :: (text ++ more))
    have hskip := hskips (text ++ more)
    have hsource : (blanks ++ '#' :: (word ++ '\n' :: text)) ++ more =
        blanks ++ '#' :: (word ++ '\n' :: (text ++ more)) := by simp
    rw [List.cons_append] at hskip
    rw [hsource, read_of_comment hblank rfl, hskip]
    exact hlocal more hmore

/-- Reading is local where a token is next. -/
theorem local_read_of_kind {l l' : Lexer} {kind : TokenKind} {blanks tail : List Char}
    {chars : CharStream} {c : Char} (heat : l.chars.eatWhile isBlank = (blanks, chars))
    (hcons : chars.rest = c :: tail) (hc : c ≠ '#')
    (hkind : readKind ⟨chars, l.names⟩ c = (.ok kind, l')) :
    Local read l l' (some ⟨kind, ⟨chars.offset, l'.chars.offset⟩⟩) := by
  obtain ⟨text, htext, hrest, hlocal⟩ := local_readKind (l := ⟨chars, l.names⟩) hcons hkind
  change chars.rest = text ++ l'.chars.rest at hrest
  obtain ⟨hblanks, -, hstop, -⟩ := CharStream.eatWhile_spec heat
  have hblank : isBlank c = false := hstop c (by rw [hcons]; rfl)
  obtain ⟨word, rfl⟩ : ∃ word, text = c :: word := by
    rw [hcons] at hrest
    cases text with
    | nil => exact absurd rfl htext
    | cons d word => exact ⟨word, by rw [(List.cons.inj hrest).1]⟩
  refine ⟨blanks ++ c :: word, by simp, ?_, fun more hmore => ?_⟩
  · rw [hblanks, hrest, List.append_assoc]
  · have hblanks := eatWhile_blank_append heat hblank (word ++ more)
    have hsource : (blanks ++ c :: word) ++ more = blanks ++ c :: (word ++ more) := by simp
    have hread :=
      read_of_kind (l := ⟨⟨blanks ++ c :: (word ++ more), l.chars.position⟩, l.names⟩)
        hblanks rfl hc (hlocal more hmore)
    rw [hsource, hread]
    rfl

/-- Reading a token is local, with the blanks and comments in front of it. -/
theorem local_read {l l' : Lexer} {t : Token} (h : l.read = (.ok (some t), l')) :
    Local read l l' (some t) := by
  -- once for every comment in front of the token
  fun_induction read l with
  | case1 l chars hnil => cases h
  | case2 l chars tail hcons ih => exact local_read_of_comment rfl hcons (ih h)
  | case3 l chars c tail hcons hhash kind rest hkind =>
    cases h
    exact local_read_of_kind rfl hcons hhash hkind
  | case4 l chars c tail hcons hhash e rest hkind => cases h

/-! ## Whole sources -/

/-- A source cut off behind some of its tokens: the text up to there, which yields the same tokens
in front of any other continuation, and the lexer that goes on. -/
structure Cut (l : Lexer) (before : List Token) (text : List Char) (m : Lexer) : Prop where
  source : l.chars.rest = text ++ m.chars.rest
  consistent : m.names.Consistent
  grows : l.names.Grows m.names
  ends : m.names.Grows l.scan.names
  known : ∀ t ∈ before, t.kind.Known m.names
  scan (more : List Char) (hmore : MayFollow m.chars.rest more) :
    scan ⟨⟨text ++ more, l.chars.position⟩, l.names⟩ =
      ⟨before ++ (Lexer.scan ⟨⟨more, m.chars.position⟩, m.names⟩).tokens,
        (Lexer.scan ⟨⟨more, m.chars.position⟩, m.names⟩).ending,
        (Lexer.scan ⟨⟨more, m.chars.position⟩, m.names⟩).names⟩

/-- A source can be cut off behind any of its tokens. -/
theorem exists_cut {l : Lexer} {before after : List Token} (hnames : l.names.Consistent)
    (h : l.scan.tokens = before ++ after) : ∃ text m, Cut l before text m := by
  induction before generalizing l with
  | nil =>
    exact ⟨[], l, rfl, hnames, .refl l.names, (numbers_scan hnames).2.1, List.forall_mem_nil _,
      fun more _ => rfl⟩
  | cons t before ih =>
    rcases hread : l.read with ⟨_ | _ | u, m⟩
    -- the scan has a token to begin with, so there is one to be read
    · rw [scan_of_error hread] at h
      contradiction
    · rw [scan_of_end hread] at h
      contradiction
    · have hnumbers := numbers_read hnames
      rw [hread] at hnumbers
      have hscan := scan_of_token hread
      rw [hscan] at h
      obtain ⟨rfl, hrest⟩ := List.cons.inj h
      obtain ⟨text, m', hcut⟩ := ih hnumbers.consistent hrest
      obtain ⟨first, -, hfirst, hlocal⟩ := local_read hread
      refine ⟨first ++ text, m', ?_, hcut.consistent, hnumbers.grows.trans hcut.grows, ?_, ?_, ?_⟩
      · rw [hfirst, hcut.source, List.append_assoc]
      · rw [hscan]
        exact hcut.ends
      · intro t ht
        rcases List.mem_cons.mp ht with rfl | ht
        · exact (hnumbers.known _ rfl).grows hcut.grows
        · exact hcut.known t ht
      · intro more hmore
        -- behind the first token stand the others, as they did, or what may follow all of them
        have hfollow : MayFollow m.chars.rest (text ++ more) := by
          intro c hc
          rw [hcut.source]
          cases text with
          | nil => exact hmore c hc
          | cons d text => exact .inr hc
        have hfirst := hlocal (text ++ more) hfollow
        rw [List.append_assoc, scan_of_token hfirst, hcut.scan more hmore]
        rfl

/-! ## Texts of tokens -/

end Lexer

/-- Punctuation and reserved words as they are written. -/
def TokenKind.text : TokenKind → List Char
  | punct mark => [mark.char]
  | keyword word => word.spelling.toList
  | _ => []

/-- Tokens with a fixed spelling. -/
def TokenKind.IsFixed : TokenKind → Prop
  | punct _ | keyword _ => True
  | _ => False

namespace Lexer

/-- The characters of a reserved word. -/
theorem exists_spelling_cons (word : Keyword) : ∃ c run, word.spelling.toList = c :: run ∧
    (c ≠ quoteMark ∧ c ≠ '#' ∧ isBlank c = false ∧ isDigit c = false ∧ isWordStart c = true) ∧
    ∀ d ∈ c :: run, isWordChar d = true := by
  cases word <;> exact ⟨_, _, rfl, by decide, List.all_eq_true.mp rfl⟩

/-- A token with a fixed spelling, in front of a blank or the end. -/
theorem readKind_text {kind : TokenKind} (hkind : kind.IsFixed) {more : List Char}
    (hmore : MayFollow [] more) (position : Position) (names : Interner) :
    ∃ c tail behind, kind.text ++ more = c :: tail ∧ c ≠ '#' ∧ isBlank c = false ∧
      readKind ⟨⟨c :: tail, position⟩, names⟩ c = (.ok kind, ⟨⟨more, behind⟩, names⟩) := by
  cases kind with
  | punct mark =>
    refine ⟨mark.char, more, position.after mark.char, rfl, ?_, ?_, ?_⟩
    · cases mark <;> decide
    · cases mark <;> decide
    · cases mark <;> rfl
  | keyword word =>
    obtain ⟨c, run, hspelling, ⟨hquote, hhash, hblank, hdigit, hstart⟩, hrun⟩ :=
      exists_spelling_cons word
    have heat : CharStream.eatWhile isWordChar ⟨c :: (run ++ more), position⟩ =
        (c :: run, ⟨more, position.afterAll (c :: run)⟩) := by
      refine CharStream.eatWhile_append position hrun fun d hd => ?_
      rcases hmore d hd with hd | hd
      · exact not_isWordChar_of_isBlank d hd
      · contradiction
    have hword : Keyword.ofSpelling? (String.ofList (c :: run)) = some word := by
      rw [← hspelling, String.ofList_toList, Keyword.ofSpelling?_spelling]
    refine ⟨c, run ++ more, position.afterAll (c :: run), ?_, hhash, hblank, ?_⟩
    · rw [TokenKind.text, hspelling, List.cons_append]
    simp only [readKind, hquote, hdigit, hstart, if_false, if_true, Bool.false_eq_true, readWord,
      heat, hword]
    rfl
  | _ => exact hkind.elim

/-- Tokens with fixed spellings, with a blank in front of each. -/
def textOf (kinds : List TokenKind) : List Char := kinds.flatMap fun kind => ' ' :: kind.text

theorem mayFollow_textOf (rest : List Char) (kinds : List TokenKind) :
    MayFollow rest (textOf kinds) := by
  intro c hc
  cases kinds with
  | nil => contradiction
  | cons kind kinds =>
    cases hc
    exact .inl rfl

theorem read_text {kind : TokenKind} (hkind : kind.IsFixed) {more : List Char}
    (hmore : MayFollow [] more) (position : Position) (names : Interner) :
    ∃ span behind, read ⟨⟨' ' :: (kind.text ++ more), position⟩, names⟩ =
      (.ok (some ⟨kind, span⟩), ⟨⟨more, behind⟩, names⟩) := by
  obtain ⟨c, tail, behind, htext, hhash, hblank, hread⟩ :=
    readKind_text hkind hmore (position.after ' ') names
  have heat : CharStream.eatWhile isBlank ⟨[' '] ++ c :: tail, position⟩ =
      ([' '], ⟨c :: tail, position.afterAll [' ']⟩) := by
    refine CharStream.eatWhile_append position (List.all_eq_true.mp rfl) fun d hd => ?_
    cases hd
    exact hblank
  rw [htext]
  exact ⟨_, behind, read_of_kind heat rfl hhash hread⟩

/-- Tokens with fixed spellings are read as they are written. -/
theorem scan_textOf {kinds : List TokenKind} (hkinds : ∀ kind ∈ kinds, kind.IsFixed)
    (position : Position) (names : Interner) : ∃ tokens offset,
      scan ⟨⟨textOf kinds, position⟩, names⟩ = ⟨tokens, .ok offset, names⟩ ∧
        tokens.map Token.kind = kinds := by
  induction kinds generalizing position with
  | nil => exact ⟨[], _, scan_of_end (read_nil position names), rfl⟩
  | cons kind kinds ih =>
    obtain ⟨hkind, hkinds⟩ := List.forall_mem_cons.mp hkinds
    obtain ⟨span, behind, hread⟩ := read_text hkind (mayFollow_textOf [] kinds) position names
    obtain ⟨tokens, offset, hscan, htokens⟩ := ih hkinds behind
    refine ⟨⟨kind, span⟩ :: tokens, offset, ?_, by rw [List.map_cons, htokens]⟩
    rw [textOf, List.flatMap_cons]
    exact (scan_of_token hread).trans (by rw [hscan])

end Lexer

/-! ## The end of a source -/

theorem Position.bytes_after (p : Position) (c : Char) :
    (p.after c).bytes = p.bytes + c.utf8Size := by
  unfold Position.after
  split <;> rfl

theorem Position.bytes_afterAll (p : Position) (text : List Char) :
    (p.afterAll text).bytes = p.bytes + byteCount text := by
  induction text generalizing p with
  | nil => rfl
  | cons c text ih =>
    have hstep : p.afterAll (c :: text) = (p.after c).afterAll text := rfl
    rw [hstep, ih, Position.bytes_after, byteCount, Nat.add_assoc]

theorem byteCount_append (xs ys : List Char) :
    byteCount (xs ++ ys) = byteCount xs + byteCount ys := by
  induction xs with
  | nil => rw [List.nil_append, byteCount, Nat.zero_add]
  | cons c xs ih => rw [List.cons_append, byteCount, byteCount, ih, Nat.add_assoc]

namespace CharStream

/-- The bytes read and those left: the length of the source. -/
def total (s : CharStream) : Nat := s.position.bytes + byteCount s.rest

theorem total_next (s : CharStream) : s.next.2.total = s.total := by
  obtain ⟨rest, position⟩ := s
  cases rest with
  | nil => rfl
  | cons c rest => simp [next, total, Position.bytes_after, byteCount, Nat.add_assoc]

theorem total_eatWhile (p : Char → Bool) (s : CharStream) : (s.eatWhile p).2.total = s.total := by
  rcases heat : s.eatWhile p with ⟨run, behind⟩
  obtain ⟨hrest, -, -, hposition⟩ := eatWhile_spec heat
  rw [total, total, hposition, Position.bytes_afterAll, hrest, byteCount_append, Nat.add_assoc]

theorem total_skipLine (s : CharStream) : s.skipLine.total = s.total := by
  by_cases hfeed : '\n' ∈ s.rest
  · obtain ⟨rest, position⟩ := s
    obtain ⟨line, tail, rfl, hline⟩ := List.eq_append_cons_of_mem hfeed
    have hsize : Char.utf8Size '\n' = 1 := by decide
    rw [skipLine_append tail position hline, total, total, byteCount_append, byteCount, hsize]
    simp only
    omega
  · rw [skipLine_of_not_mem hfeed]
    rfl

end CharStream

namespace Lexer

theorem total_readKind (l : Lexer) (c : Char) : (l.readKind c).2.chars.total = l.chars.total := by
  unfold readKind
  split
  · have heat := CharStream.total_eatWhile (· != quoteMark) l.chars.next.2
    rw [CharStream.total_next] at heat
    unfold readString
    dsimp only
    split
    · exact heat
    · rw [← heat]
      exact CharStream.total_next _
  split
  · exact CharStream.total_eatWhile isDigit l.chars
  split
  · have heat := CharStream.total_eatWhile isWordChar l.chars
    unfold readWord
    dsimp only
    split <;> exact heat
  split
  · exact CharStream.total_next l.chars
  split
  · exact CharStream.total_eatWhile isOperatorChar l.chars
  · rfl

theorem total_read (l : Lexer) : l.read.2.chars.total = l.chars.total := by
  fun_induction read l with
  | case1 l chars hnil => exact CharStream.total_eatWhile isBlank l.chars
  | case2 l chars tail hcons ih =>
    exact ih.trans ((CharStream.total_skipLine chars).trans
      (CharStream.total_eatWhile isBlank l.chars))
  | case3 l chars c tail hcons hhash kind rest hkind =>
    have hread := total_readKind ⟨chars, l.names⟩ c
    rw [hkind] at hread
    exact hread.trans (CharStream.total_eatWhile isBlank l.chars)
  | case4 l chars c tail hcons hhash e rest hkind =>
    have hread := total_readKind ⟨chars, l.names⟩ c
    rw [hkind] at hread
    exact hread.trans (CharStream.total_eatWhile isBlank l.chars)

theorem rest_of_read_none {l m : Lexer} (h : l.read = (.ok none, m)) : m.chars.rest = [] := by
  fun_induction read l with
  | case1 l chars hnil =>
    cases h
    exact hnil
  | case2 l chars tail hcons ih => exact ih h
  | case3 | case4 => cases h

/-- A source that can be cut into tokens ends at its length. -/
theorem ending_scan {l : Lexer} {offset : Nat} (h : l.scan.ending = .ok offset) :
    offset = clampOffset l.chars.total := by
  fun_induction scan l with
  | case1 l t rest hread more ih =>
    have htotal := total_read l
    rw [hread] at htotal
    rw [← htotal]
    exact ih h
  | case2 l rest hread =>
    have htotal := total_read l
    rw [hread] at htotal
    cases h
    rw [← htotal, CharStream.total, rest_of_read_none hread]
    rfl
  | case3 l e rest hread => contradiction

end Lexer

/-- A source that can be cut into tokens ends at its length. -/
theorem ending_scanSource {source : String} {names : Interner} {offset : Nat}
    (h : (scanSource source names).ending = .ok offset) :
    offset = clampOffset (byteCount source.toList) := by
  rw [Lexer.ending_scan h]
  simp [CharStream.total, CharStream.ofString, Position.start]

end LambdaScript
