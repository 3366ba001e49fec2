import Mathlib.Data.List.Induction
import LambdaScript.Proofs.Locality
/-!
# What stands in a source

Between tokens there is `Layout`: blanks and comments. A token stands for characters that spell it
(`TokenKind.SpelledBy`), and these are not followed by one that would make it longer
(`TokenKind.Continues`). Layout is skipped (`Lexer.read_layout`), and what spells a token is read as
that token (`Lexer.readKind_lexeme`). `Lexer.Meets` lists what can stand behind layout and what
reading comes to there; one of its cases applies to every source (`Lexer.exists_meets`).
-/

namespace LambdaScript

/-! ## Positions -/

namespace Position

theorem afterAll_cons (p : Position) (c : Char) (text : List Char) :
    p.afterAll (c :: text) = (p.after c).afterAll text := rfl

theorem afterAll_append (p : Position) (xs ys : List Char) :
    p.afterAll (xs ++ ys) = (p.afterAll xs).afterAll ys :=
  List.foldl_append

/-- Without a line feed a text goes on with the line. -/
theorem afterAll_of_not_mem {text : List Char} (p : Position) (h : '\n' ∉ text) :
    p.afterAll text = ⟨p.bytes + byteCount text, p.line, p.column + text.length⟩ := by
  induction text generalizing p with
  | nil => rfl
  | cons c text ih =>
    have hc : c ≠ '\n' := fun heq => h (heq ▸ List.mem_cons_self)
    have htext : '\n' ∉ text := fun hmem => h (List.mem_cons_of_mem _ hmem)
    rw [afterAll_cons, ih _ htext, after, if_neg hc, byteCount, List.length_cons]
    simp only [Nat.add_assoc, Nat.add_comm 1]

end Position

/-- The characters of a text behind its last line feed. -/
def lastLine (text : List Char) : List Char := (text.reverse.takeWhile (· != '\n')).reverse

theorem lastLine_concat (text : List Char) (c : Char) :
    lastLine (text ++ [c]) = if c = '\n' then [] else lastLine text ++ [c] := by
  by_cases hc : c = '\n'
  · simp [lastLine, hc]
  · simp [lastLine, hc]

/-- The place behind a text: its bytes, its line feeds, and the characters behind the last one. -/
theorem Position.afterAll_start (text : List Char) : Position.start.afterAll text =
    ⟨byteCount text, 1 + text.count '\n', (lastLine text).length⟩ := by
  induction text using List.reverseRecOn with
  | nil => rfl
  | append_singleton text c ih =>
    have hsize : byteCount (text ++ [c]) = byteCount text + c.utf8Size := by
      rw [byteCount_append]
      rfl
    rw [Position.afterAll_append, ih, lastLine_concat, hsize]
    show Position.after _ c = _
    by_cases hc : c = '\n'
    · simp [Position.after, hc, Nat.add_assoc]
    · simp [Position.after, hc]

namespace CharStream

/-- Skipping a line is reading it with its line feed. -/
theorem skipLine_eq_afterAll {line : List Char} (rest : List Char) (p : Position)
    (hline : '\n' ∉ line) :
    skipLine ⟨line ++ '\n' :: rest, p⟩ = ⟨rest, p.afterAll (line ++ ['\n'])⟩ := by
  have hsize : Char.utf8Size '\n' = 1 := by decide
  rw [skipLine_append rest p hline, Position.afterAll_append, Position.afterAll_of_not_mem p hline]
  simp [Position.afterAll, Position.after, hsize]

/-- Skipping the last line is reading it. -/
theorem skipLine_last {s : CharStream} (h : '\n' ∉ s.rest) :
    s.skipLine = ⟨[], s.position.afterAll s.rest⟩ := by
  rw [skipLine_of_not_mem h, Position.afterAll_of_not_mem _ h]

end CharStream

/-! ## Layout -/

/-- Blanks and comments. A comment goes through the next line feed; only where the text is the last
one of a source may it do without. -/
inductive Layout (last : Prop) : List Char → Prop where
  | nil : Layout last []
  | blank {c : Char} {text : List Char} (hc : isBlank c = true) (h : Layout last text) :
      Layout last (c :: text)
  | comment {line text : List Char} (hline : '\n' ∉ line) (h : Layout last text) :
      Layout last ('#' :: (line ++ '\n' :: text))
  | lastComment {line : List Char} (hlast : last) (hline : '\n' ∉ line) : Layout last ('#' :: line)

/-- Layout goes on with layout. -/
theorem Layout.append {last : Prop} {gap text : List Char} (hgap : Layout False gap)
    (h : Layout last text) : Layout last (gap ++ text) := by
  induction hgap with
  | nil => exact h
  | blank hc _ ih => exact .blank hc ih
  | @comment line gap hline _ ih =>
    have hsplit : '#' :: (line ++ '\n' :: gap) ++ text =
        '#' :: (line ++ '\n' :: (gap ++ text)) := by simp
    rw [hsplit]
    exact .comment hline ih
  | lastComment hlast _ => exact hlast.elim

/-! ## Lexemes -/

/-- These characters spell a token. A word is an identifier unless it is reserved; strings are known
by what stands between their quotes. -/
def TokenKind.SpelledBy (names : Interner) (lexeme : List Char) : TokenKind → Prop
  | number value =>
    lexeme ≠ [] ∧ (∀ c ∈ lexeme, isDigit c = true) ∧ value = Decimal.ofDigits lexeme
  | string contents =>
    ∃ inner, lexeme = quoteMark :: (inner ++ [quoteMark]) ∧ quoteMark ∉ inner ∧
      names.find? contents = some (String.ofList inner)
  | identifier name =>
    (∃ c run, lexeme = c :: run ∧ isWordStart c = true ∧ ∀ d ∈ run, isWordChar d = true) ∧
      (∀ word : Keyword, word.spelling ≠ String.ofList lexeme) ∧
      names.find? name = some (String.ofList lexeme)
  | keyword word => lexeme = word.spelling.toList
  | punct mark => lexeme = [mark.char]
  | operator spelling =>
    lexeme ≠ [] ∧ (∀ c ∈ lexeme, isOperatorChar c = true) ∧
      names.find? spelling = some (String.ofList lexeme)

/-- With this character behind it a token would be longer. -/
def TokenKind.Continues : TokenKind → Char → Bool
  | number _, c => isDigit c
  | identifier _, c | keyword _, c => isWordChar c
  | operator _, c => isOperatorChar c
  | string _, _ | punct _, _ => false

namespace TokenKind.SpelledBy

variable {names later : Interner} {lexeme : List Char} {kind : TokenKind}

theorem grows (h : kind.SpelledBy names lexeme) (hgrows : names.Grows later) :
    kind.SpelledBy later lexeme := by
  cases kind with
  | number | keyword | punct => exact h
  | string contents =>
    obtain ⟨inner, hlexeme, hinner, hfind⟩ := h
    exact ⟨inner, hlexeme, hinner, hgrows _ _ hfind⟩
  | identifier name => exact ⟨h.1, h.2.1, hgrows _ _ h.2.2⟩
  | operator spelling => exact ⟨h.1, h.2.1, hgrows _ _ h.2.2⟩

theorem ne_nil (h : kind.SpelledBy names lexeme) : lexeme ≠ [] := by
  cases kind with
  | number value => exact h.1
  | string contents =>
    obtain ⟨inner, rfl, -⟩ := h
    exact List.cons_ne_nil _ _
  | identifier name =>
    obtain ⟨⟨c, run, rfl, -⟩, -⟩ := h
    exact List.cons_ne_nil _ _
  | keyword word =>
    obtain ⟨c, run, hspelling, -⟩ := Lexer.exists_spelling_cons word
    rw [show lexeme = c :: run from h.trans hspelling]
    exact List.cons_ne_nil _ _
  | punct mark =>
    rw [show lexeme = [mark.char] from h]
    exact List.cons_ne_nil _ _
  | operator spelling => exact h.1

end TokenKind.SpelledBy

theorem Keyword.spelling_eq_of_ofSpelling? {s : String} {word : Keyword}
    (h : ofSpelling? s = some word) : word.spelling = s := by
  unfold ofSpelling? at h
  split at h <;> cases h <;> rfl

/-- Blanks, the mark of comments, quotes, and the characters of words, numbers, punctuation and
operators. -/
def isLexical (c : Char) : Bool :=
  isBlank c || c == '#' || c == quoteMark || isWordChar c || (Punct.ofChar? c).isSome ||
    isOperatorChar c

theorem Punct.char_of_ofChar? {c : Char} {mark : Punct} (h : ofChar? c = some mark) :
    mark.char = c := by
  unfold ofChar? at h
  split at h <;> cases h <;> rfl

namespace Lexer

/-! ## Reading behind layout -/

/-- Reading, in terms of what stands behind the blanks. -/
theorem read_eq (l : Lexer) : l.read =
    match (l.chars.eatWhile isBlank).2.rest with
    | [] => (.ok none, ⟨(l.chars.eatWhile isBlank).2, l.names⟩)
    | c :: _ =>
      if c = '#' then read ⟨(l.chars.eatWhile isBlank).2.skipLine, l.names⟩
      else
        match readKind ⟨(l.chars.eatWhile isBlank).2, l.names⟩ c with
        | (.ok kind, l') =>
          (.ok (some ⟨kind, ⟨(l.chars.eatWhile isBlank).2.offset, l'.chars.offset⟩⟩), l')
        | (.error e, l') => (.error e, l') := by
  rw [read]
  split
  · next hnil => simp only [hnil]
  · next c tail hcons =>
    rcases hkind : readKind ⟨(l.chars.eatWhile isBlank).2, l.names⟩ c with ⟨e | kind, l'⟩ <;>
      simp only [hcons, hkind]

/-- Only what stands behind the blanks matters. -/
theorem read_congr {s s' : CharStream} (names : Interner)
    (h : (s.eatWhile isBlank).2 = (s'.eatWhile isBlank).2) :
    read ⟨s, names⟩ = read ⟨s', names⟩ := by
  rw [read_eq, read_eq ⟨s', names⟩, h]

theorem read_blank {c : Char} (hc : isBlank c = true) (text : List Char) (p : Position)
    (names : Interner) : read ⟨⟨c :: text, p⟩, names⟩ = read ⟨⟨text, p.after c⟩, names⟩ := by
  apply read_congr
  simp only [CharStream.eatWhile, List.takeWhile_cons_of_pos hc, List.dropWhile_cons_of_pos hc]
  rfl

theorem eatWhile_blank_of_cons {c : Char} (hc : isBlank c = false) (tail : List Char)
    (p : Position) :
    CharStream.eatWhile isBlank ⟨c :: tail, p⟩ = ([], ⟨c :: tail, p⟩) := by
  have hc' : ¬isBlank c = true := by simp [hc]
  simp only [CharStream.eatWhile, List.takeWhile_cons_of_neg hc', List.dropWhile_cons_of_neg hc']
  rfl

theorem read_comment {line : List Char} (hline : '\n' ∉ line) (text : List Char) (p : Position)
    (names : Interner) : read ⟨⟨'#' :: (line ++ '\n' :: text), p⟩, names⟩ =
      read ⟨⟨text, p.afterAll ('#' :: (line ++ ['\n']))⟩, names⟩ := by
  have hline' : '\n' ∉ '#' :: line := by simp [hline]
  rw [read_of_comment (eatWhile_blank_of_cons (by decide) _ p) rfl, ← List.cons_append,
    CharStream.skipLine_eq_afterAll text p hline']
  rfl

/-- Layout in front of a text is skipped. -/
theorem read_layout {gap : List Char} (h : Layout False gap) (rest : List Char) (p : Position)
    (names : Interner) :
    read ⟨⟨gap ++ rest, p⟩, names⟩ = read ⟨⟨rest, p.afterAll gap⟩, names⟩ := by
  induction h generalizing p with
  | nil => rfl
  | blank hc _ ih => exact (read_blank hc _ p names).trans (ih (p.after _))
  | @comment line text hline _ ih =>
    have hsplit : '#' :: (line ++ '\n' :: text) = '#' :: (line ++ ['\n']) ++ text := by simp
    have hsource : '#' :: (line ++ '\n' :: text) ++ rest =
        '#' :: (line ++ '\n' :: (text ++ rest)) := by simp
    rw [hsource, read_comment hline, ih, hsplit, Position.afterAll_append]
  | lastComment hlast _ => exact hlast.elim

/-- The last layout of a source is read to its end. -/
theorem read_last {text : List Char} (h : Layout True text) (p : Position) (names : Interner) :
    read ⟨⟨text, p⟩, names⟩ = (.ok none, ⟨⟨[], p.afterAll text⟩, names⟩) := by
  induction h generalizing p with
  | nil => exact read_nil p names
  | blank hc _ ih => exact (read_blank hc _ p names).trans (ih (p.after _))
  | @comment line text hline _ ih =>
    have hsplit : '#' :: (line ++ '\n' :: text) = '#' :: (line ++ ['\n']) ++ text := by simp
    rw [read_comment hline, ih, hsplit, Position.afterAll_append]
  | @lastComment line _ hline =>
    have hline' : '\n' ∉ '#' :: line := by simp [hline]
    rw [read_of_comment (eatWhile_blank_of_cons (by decide) _ p) rfl,
      CharStream.skipLine_last hline', read_nil]

/-! ## Characters with which tokens begin -/

/-- The first character of a word is no digit. -/
theorem not_isDigit_of_isWordStart {c : Char} (h : isWordStart c = true) : isDigit c = false := by
  simp only [isWordStart, isDigit, Bool.or_eq_true, Bool.and_eq_true, decide_eq_true_eq,
    beq_iff_eq, Bool.and_eq_false_iff, decide_eq_false_iff_not, Char.le_def,
    UInt32.le_iff_toNat_le] at h ⊢
  rcases h with (h | h) | rfl
  · right
    have : ('a').val.toNat = 97 := rfl
    have : ('9').val.toNat = 57 := rfl
    omega
  · right
    have : ('A').val.toNat = 65 := rfl
    have : ('9').val.toNat = 57 := rfl
    omega
  · decide

/-- A character with a property that blanks, the mark of comments and quotes do not have. -/
theorem ordinary_of_class {p : Char → Bool} {c : Char} (hc : p c = true)
    (hblank : ∀ d, isBlank d = true → p d = false) (hhash : p '#' = false)
    (hquote : p quoteMark = false) : isBlank c = false ∧ c ≠ '#' ∧ c ≠ quoteMark := by
  refine ⟨Bool.eq_false_iff.mpr fun h => ?_, ?_, ?_⟩
  · rw [hblank c h] at hc
    contradiction
  · rintro rfl
    rw [hhash] at hc
    contradiction
  · rintro rfl
    rw [hquote] at hc
    contradiction

theorem isWordChar_of_isWordStart {c : Char} (h : isWordStart c = true) : isWordChar c = true := by
  rw [isWordChar, h, Bool.true_or]

/-- A character of operators begins no other token. -/
theorem classes_of_isOperatorChar {c : Char} (h : isOperatorChar c = true) :
    isDigit c = false ∧ isWordStart c = false ∧ Punct.ofChar? c = none := by
  simp only [isOperatorChar, Bool.or_eq_true, beq_iff_eq, or_assoc] at h
  rcases h with rfl | rfl | rfl | rfl | rfl | rfl | rfl | rfl | rfl | rfl | rfl <;> decide

/-! ## Lexemes -/

variable {names : Interner} {c : Char} {run rest : List Char}

theorem readKind_number (hrun : ∀ d ∈ c :: run, isDigit d = true)
    (hstop : ∀ d, rest.head? = some d → isDigit d = false) (p : Position) (names : Interner) :
    isBlank c = false ∧ c ≠ '#' ∧ readKind ⟨⟨c :: run ++ rest, p⟩, names⟩ c =
      (.ok (.number (Decimal.ofDigits (c :: run))), ⟨⟨rest, p.afterAll (c :: run)⟩, names⟩) := by
  have hc := hrun c List.mem_cons_self
  obtain ⟨hblank, hhash, hquote⟩ :=
    ordinary_of_class hc not_isDigit_of_isBlank (by decide) (by decide)
  refine ⟨hblank, hhash, ?_⟩
  simp only [readKind, hquote, hc, if_false, if_true, readNumber,
    CharStream.eatWhile_append p hrun hstop]
  rfl

theorem readKind_word (hc : isWordStart c = true) (hrun : ∀ d ∈ run, isWordChar d = true)
    (hstop : ∀ d, rest.head? = some d → isWordChar d = false) (p : Position) (names : Interner) :
    isBlank c = false ∧ c ≠ '#' ∧ readKind ⟨⟨c :: run ++ rest, p⟩, names⟩ c =
      match Keyword.ofSpelling? (String.ofList (c :: run)) with
      | some word => (.ok (.keyword word), ⟨⟨rest, p.afterAll (c :: run)⟩, names⟩)
      | none => (.ok (.identifier (names.intern (String.ofList (c :: run))).1),
          ⟨⟨rest, p.afterAll (c :: run)⟩, (names.intern (String.ofList (c :: run))).2⟩) := by
  have hword := isWordChar_of_isWordStart hc
  obtain ⟨hblank, hhash, hquote⟩ :=
    ordinary_of_class hword not_isWordChar_of_isBlank (by decide) (by decide)
  have heat := CharStream.eatWhile_append p (List.forall_mem_cons.mpr ⟨hword, hrun⟩) hstop
  refine ⟨hblank, hhash, ?_⟩
  simp only [readKind, hquote, not_isDigit_of_isWordStart hc, hc, if_false, if_true,
    Bool.false_eq_true, readWord, heat]
  cases Keyword.ofSpelling? (String.ofList (c :: run)) <;> rfl

theorem readKind_operator (hrun : ∀ d ∈ c :: run, isOperatorChar d = true)
    (hstop : ∀ d, rest.head? = some d → isOperatorChar d = false) (p : Position)
    (names : Interner) :
    isBlank c = false ∧ c ≠ '#' ∧ readKind ⟨⟨c :: run ++ rest, p⟩, names⟩ c =
      (.ok (.operator (names.intern (String.ofList (c :: run))).1),
        ⟨⟨rest, p.afterAll (c :: run)⟩, (names.intern (String.ofList (c :: run))).2⟩) := by
  have hc := hrun c List.mem_cons_self
  obtain ⟨hblank, hhash, hquote⟩ :=
    ordinary_of_class hc not_isOperatorChar_of_isBlank (by decide) (by decide)
  obtain ⟨hdigit, hstart, hpunct⟩ := classes_of_isOperatorChar hc
  refine ⟨hblank, hhash, ?_⟩
  simp only [readKind, hquote, hdigit, hstart, hpunct, hc, if_false, if_true, Bool.false_eq_true,
    readOperator, CharStream.eatWhile_append p hrun hstop]
  rfl

theorem readKind_string {inner : List Char} (hinner : quoteMark ∉ inner) (p : Position)
    (names : Interner) :
    readKind ⟨⟨quoteMark :: (inner ++ quoteMark :: rest), p⟩, names⟩ quoteMark =
      (.ok (.string (names.intern (String.ofList inner)).1),
        ⟨⟨rest, p.afterAll (quoteMark :: (inner ++ [quoteMark]))⟩,
          (names.intern (String.ofList inner)).2⟩) := by
  have hrun : ∀ d ∈ inner, (d != quoteMark) = true := by
    intro d hd
    simpa using fun heq : d = quoteMark => hinner (heq ▸ hd)
  have heat : CharStream.eatWhile (· != quoteMark)
      ⟨inner ++ quoteMark :: rest, p.after quoteMark⟩ = (inner, _) :=
    CharStream.eatWhile_append (p.after quoteMark) hrun (by simp)
  simp only [readKind, if_true, readString, CharStream.next, heat]
  rw [Position.afterAll_cons, Position.afterAll_append]
  rfl

theorem readKind_punct (mark : Punct) (p : Position) (names : Interner) :
    isBlank mark.char = false ∧ mark.char ≠ '#' ∧
      readKind ⟨⟨mark.char :: rest, p⟩, names⟩ mark.char =
        (.ok (.punct mark), ⟨⟨rest, p.after mark.char⟩, names⟩) := by
  cases mark <;> exact ⟨by decide, by decide, rfl⟩

/-- What spells a token is read as that token, if it does not go on. The strings in it must be
numbered already, so that the interner stays as it is. -/
theorem readKind_lexeme {kind : TokenKind} {lexeme : List Char} (hnames : names.Consistent)
    (h : kind.SpelledBy names lexeme)
    (hnext : ∀ d, rest.head? = some d → kind.Continues d = false) (p : Position) :
    ∃ c tail, lexeme = c :: tail ∧ isBlank c = false ∧ c ≠ '#' ∧
      readKind ⟨⟨lexeme ++ rest, p⟩, names⟩ c = (.ok kind, ⟨⟨rest, p.afterAll lexeme⟩, names⟩) := by
  cases kind with
  | number value =>
    obtain ⟨hne, hdigits, rfl⟩ := h
    obtain ⟨c, tail, rfl⟩ := List.exists_cons_of_ne_nil hne
    exact ⟨c, tail, rfl, readKind_number hdigits hnext p names⟩
  | string contents =>
    obtain ⟨inner, rfl, hinner, hfind⟩ := h
    have hread : readKind ⟨⟨quoteMark :: (inner ++ quoteMark :: rest), p⟩, names⟩ quoteMark = _ :=
      readKind_string hinner p names
    rw [Interner.intern_of_find? hnames hfind] at hread
    refine ⟨quoteMark, _, rfl, by decide, by decide, ?_⟩
    rw [List.cons_append, List.append_assoc, List.singleton_append]
    exact hread
  | identifier name =>
    obtain ⟨⟨c, run, rfl, hc, hrun⟩, hfree, hfind⟩ := h
    obtain ⟨hblank, hhash, hread⟩ := readKind_word hc hrun hnext p names
    have hnone : Keyword.ofSpelling? (String.ofList (c :: run)) = none := by
      cases hreserved : Keyword.ofSpelling? (String.ofList (c :: run)) with
      | none => rfl
      | some word => exact absurd (Keyword.spelling_eq_of_ofSpelling? hreserved) (hfree word)
    rw [hnone, Interner.intern_of_find? hnames hfind] at hread
    exact ⟨c, run, rfl, hblank, hhash, hread⟩
  | keyword word =>
    obtain ⟨c, run, hspelling, ⟨-, -, -, -, hc⟩, hall⟩ := exists_spelling_cons word
    obtain rfl : lexeme = c :: run := h.trans hspelling
    obtain ⟨hblank, hhash, hread⟩ :=
      readKind_word hc (List.forall_mem_cons.mp hall).2 hnext p names
    rw [← hspelling, String.ofList_toList, Keyword.ofSpelling?_spelling] at hread
    exact ⟨c, run, rfl, hblank, hhash, by rw [← hspelling]; exact hread⟩
  | punct mark =>
    obtain rfl : lexeme = [mark.char] := h
    exact ⟨mark.char, [], rfl, readKind_punct mark p names⟩
  | operator spelling =>
    obtain ⟨hne, hall, hfind⟩ := h
    obtain ⟨c, tail, rfl⟩ := List.exists_cons_of_ne_nil hne
    obtain ⟨hblank, hhash, hread⟩ := readKind_operator hall hnext p names
    rw [Interner.intern_of_find? hnames hfind] at hread
    exact ⟨c, tail, rfl, hblank, hhash, hread⟩

/-! ## What is read -/

/-- What stands behind layout, and what reading comes to there. -/
inductive Meets (names : Interner) :
    CharStream → Except LexError (Option Token) → Lexer → Prop where
  | token {lexeme rest : List Char} {kind : TokenKind} {names' : Interner} {p : Position}
      (hlexeme : kind.SpelledBy names' lexeme)
      (hnext : ∀ c, rest.head? = some c → kind.Continues c = false) :
      Meets names ⟨lexeme ++ rest, p⟩
        (.ok (some ⟨kind, ⟨clampOffset p.bytes, clampOffset (p.afterAll lexeme).bytes⟩⟩))
        ⟨⟨rest, p.afterAll lexeme⟩, names'⟩
  | stop {text : List Char} {p : Position} (h : Layout True text) :
      Meets names ⟨text, p⟩ (.ok none) ⟨⟨[], p.afterAll text⟩, names⟩
  | invalid {c : Char} {tail : List Char} {p : Position} (hc : isLexical c = false) :
      Meets names ⟨c :: tail, p⟩
        (.error ⟨.invalidCharacter c, p.line, p.column, clampOffset p.bytes⟩)
        ⟨⟨c :: tail, p⟩, names⟩
  | unterminated {contents : List Char} {p : Position} (h : quoteMark ∉ contents) :
      Meets names ⟨quoteMark :: contents, p⟩
        (.error (CharStream.fail ⟨[], p.afterAll (quoteMark :: contents)⟩ .unterminatedString))
        ⟨⟨[], p.afterAll (quoteMark :: contents)⟩, names⟩

/-- Reading behind layout is reading a token by its first character. -/
theorem read_of_start {c : Char} (hblank : isBlank c = false) (hhash : c ≠ '#') (tail : List Char)
    (p : Position) (names : Interner) : read ⟨⟨c :: tail, p⟩, names⟩ =
      ((readKind ⟨⟨c :: tail, p⟩, names⟩ c).1.map fun kind => some ⟨kind, ⟨clampOffset p.bytes,
        (readKind ⟨⟨c :: tail, p⟩, names⟩ c).2.chars.offset⟩⟩,
        (readKind ⟨⟨c :: tail, p⟩, names⟩ c).2) := by
  rw [read_eq, eatWhile_blank_of_cons hblank]
  simp only [if_neg hhash]
  rcases readKind ⟨⟨c :: tail, p⟩, names⟩ c with ⟨_ | kind, l'⟩ <;> rfl

/-- What spells a token is read as that token. -/
theorem read_lexeme {kind : TokenKind} {lexeme : List Char} (hnames : names.Consistent)
    (h : kind.SpelledBy names lexeme)
    (hnext : ∀ d, rest.head? = some d → kind.Continues d = false) (p : Position) :
    read ⟨⟨lexeme ++ rest, p⟩, names⟩ =
      (.ok (some ⟨kind, ⟨clampOffset p.bytes, clampOffset (p.afterAll lexeme).bytes⟩⟩),
        ⟨⟨rest, p.afterAll lexeme⟩, names⟩) := by
  obtain ⟨c, tail, rfl, hblank, hhash, hread⟩ := readKind_lexeme hnames h hnext p
  rw [List.cons_append] at hread ⊢
  rw [read_of_start hblank hhash, hread]
  rfl

/-- A lexeme stands at the front of the text, and is read as the token that it spells. -/
def TakesLexeme (names : Interner) (s : CharStream) (c : Char) : Prop :=
  ∃ kind lexeme rest names', s.rest = lexeme ++ rest ∧ kind.SpelledBy names' lexeme ∧
    (∀ d, rest.head? = some d → kind.Continues d = false) ∧
    readKind ⟨s, names⟩ c = (.ok kind, ⟨⟨rest, s.position.afterAll lexeme⟩, names'⟩)

/-- A text begins with a run of characters of the class of its first one. -/
theorem exists_run {q : Char → Bool} {c : Char} (hc : q c = true) (tail : List Char) :
    ∃ run rest, c :: tail = c :: run ++ rest ∧ (∀ d ∈ c :: run, q d = true) ∧
      ∀ d, rest.head? = some d → q d = false := by
  rcases heat : CharStream.eatWhile q ⟨c :: tail, .start⟩ with ⟨run, behind⟩
  obtain ⟨hrest, hrun, hstop, -⟩ := CharStream.eatWhile_spec heat
  have hhead : (c :: tail).takeWhile q = run := congrArg Prod.fst heat
  rw [List.takeWhile_cons_of_pos hc] at hhead
  subst hhead
  exact ⟨_, _, hrest, hrun, hstop⟩

theorem takesLexeme_number (hc : isDigit c = true) (tail : List Char) (p : Position)
    (names : Interner) : TakesLexeme names ⟨c :: tail, p⟩ c := by
  obtain ⟨run, rest, hsource, hrun, hstop⟩ := exists_run hc tail
  rw [hsource]
  exact ⟨.number _, c :: run, rest, names, rfl, ⟨List.cons_ne_nil _ _, hrun, rfl⟩, hstop,
    (readKind_number hrun hstop p names).2.2⟩

theorem takesLexeme_word (hnames : names.Consistent) (hc : isWordStart c = true)
    (tail : List Char) (p : Position) : TakesLexeme names ⟨c :: tail, p⟩ c := by
  obtain ⟨run, rest, hsource, hrun, hstop⟩ := exists_run (isWordChar_of_isWordStart hc) tail
  have hrun' := (List.forall_mem_cons.mp hrun).2
  obtain ⟨-, -, hread⟩ := readKind_word hc hrun' hstop p names
  rw [hsource]
  cases hreserved : Keyword.ofSpelling? (String.ofList (c :: run)) with
  | some word =>
    have hspelling : c :: run = word.spelling.toList := by
      rw [Keyword.spelling_eq_of_ofSpelling? hreserved, String.toList_ofList]
    rw [hreserved] at hread
    exact ⟨.keyword word, c :: run, rest, names, rfl, hspelling, hstop, hread⟩
  | none =>
    have hfree : ∀ word : Keyword, word.spelling ≠ String.ofList (c :: run) := by
      intro word hspelling
      rw [← hspelling, Keyword.ofSpelling?_spelling] at hreserved
      contradiction
    rw [hreserved] at hread
    exact ⟨.identifier _, c :: run, rest, _, rfl,
      ⟨⟨c, run, rfl, hc, hrun'⟩, hfree, Interner.find?_intern hnames _⟩, hstop, hread⟩

theorem takesLexeme_punct (mark : Punct) (tail : List Char) (p : Position) (names : Interner) :
    TakesLexeme names ⟨mark.char :: tail, p⟩ mark.char :=
  ⟨.punct mark, [mark.char], tail, names, rfl, rfl, fun _ _ => rfl,
    (readKind_punct mark p names).2.2⟩

theorem takesLexeme_operator (hnames : names.Consistent) (hc : isOperatorChar c = true)
    (tail : List Char) (p : Position) : TakesLexeme names ⟨c :: tail, p⟩ c := by
  obtain ⟨run, rest, hsource, hrun, hstop⟩ := exists_run hc tail
  rw [hsource]
  exact ⟨.operator _, c :: run, rest, _, rfl,
    ⟨List.cons_ne_nil _ _, hrun, Interner.find?_intern hnames _⟩, hstop,
    (readKind_operator hrun hstop p names).2.2⟩

theorem takesLexeme_string (hnames : names.Consistent) {tail : List Char} (h : quoteMark ∈ tail)
    (p : Position) : TakesLexeme names ⟨quoteMark :: tail, p⟩ quoteMark := by
  obtain ⟨inner, rest, rfl, hinner⟩ := List.eq_append_cons_of_mem h
  exact ⟨.string _, quoteMark :: (inner ++ [quoteMark]), rest, _, by simp,
    ⟨inner, rfl, hinner, Interner.find?_intern hnames _⟩, fun _ _ => rfl,
    readKind_string hinner p names⟩

theorem meets_unterminated {contents : List Char} (h : quoteMark ∉ contents) (p : Position)
    (names : Interner) : Meets names ⟨quoteMark :: contents, p⟩
      (read ⟨⟨quoteMark :: contents, p⟩, names⟩).1
      (read ⟨⟨quoteMark :: contents, p⟩, names⟩).2 := by
  have hrun : ∀ c ∈ contents, (c != quoteMark) = true := by
    intro c hc
    simpa using fun heq : c = quoteMark => h (heq ▸ hc)
  have heat : CharStream.eatWhile (· != quoteMark) ⟨contents ++ [], p.after quoteMark⟩ =
      (contents, _) :=
    CharStream.eatWhile_append (p.after quoteMark) hrun (by simp)
  rw [List.append_nil] at heat
  have hread : readKind ⟨⟨quoteMark :: contents, p⟩, names⟩ quoteMark =
      (.error (CharStream.fail ⟨[], p.afterAll (quoteMark :: contents)⟩ .unterminatedString),
        ⟨⟨[], p.afterAll (quoteMark :: contents)⟩, names⟩) := by
    simp only [readKind, if_true, readString, CharStream.next, heat]
    rfl
  rw [read_of_start (by decide) (by decide), hread]
  exact .unterminated h

theorem meets_of_takesLexeme {c : Char} (hblank : isBlank c = false) (hhash : c ≠ '#')
    {tail : List Char} {p : Position} (h : TakesLexeme names ⟨c :: tail, p⟩ c) :
    Meets names ⟨c :: tail, p⟩ (read ⟨⟨c :: tail, p⟩, names⟩).1
      (read ⟨⟨c :: tail, p⟩, names⟩).2 := by
  obtain ⟨kind, lexeme, rest, names', hsource, hlexeme, hnext, hread⟩ := h
  rw [read_of_start hblank hhash, hread, show c :: tail = lexeme ++ rest from hsource]
  exact .token hlexeme hnext

/-- Behind layout a token, a stray character or an open string begins. -/
theorem meets_start (hnames : names.Consistent) {c : Char} (hblank : isBlank c = false)
    (hhash : c ≠ '#') (tail : List Char) (p : Position) :
    Meets names ⟨c :: tail, p⟩ (read ⟨⟨c :: tail, p⟩, names⟩).1
      (read ⟨⟨c :: tail, p⟩, names⟩).2 := by
  by_cases hquote : c = quoteMark
  · subst hquote
    by_cases hclosed : quoteMark ∈ tail
    · exact meets_of_takesLexeme hblank hhash (takesLexeme_string hnames hclosed p)
    · exact meets_unterminated hclosed p names
  by_cases hdigit : isDigit c = true
  · exact meets_of_takesLexeme hblank hhash (takesLexeme_number hdigit tail p names)
  by_cases hstart : isWordStart c = true
  · exact meets_of_takesLexeme hblank hhash (takesLexeme_word hnames hstart tail p)
  cases hpunct : Punct.ofChar? c with
  | some mark =>
    obtain rfl := Punct.char_of_ofChar? hpunct
    exact meets_of_takesLexeme hblank hhash (takesLexeme_punct mark tail p names)
  | none =>
    by_cases hoperator : isOperatorChar c = true
    · exact meets_of_takesLexeme hblank hhash (takesLexeme_operator hnames hoperator tail p)
    have hstray : isLexical c = false := by
      simp [isLexical, hblank, hhash, hquote, isWordChar, hstart, hdigit, hpunct, hoperator]
    have hread : readKind ⟨⟨c :: tail, p⟩, names⟩ c =
        (.error ⟨.invalidCharacter c, p.line, p.column, clampOffset p.bytes⟩,
          ⟨⟨c :: tail, p⟩, names⟩) := by
      simp only [readKind, hquote, hdigit, hstart, hpunct, hoperator, if_false, Bool.false_eq_true]
      rfl
    rw [read_of_start hblank hhash, hread]
    exact .invalid hstray

/-- A text begins with layout, and behind it there is the last layout or something else. -/
theorem exists_layout (text : List Char) : ∃ gap rest, text = gap ++ rest ∧ Layout False gap ∧
    (Layout True rest ∨ ∃ c tail, rest = c :: tail ∧ isBlank c = false ∧ c ≠ '#') := by
  -- a comment is as long as its line
  induction hlength : text.length using Nat.strongRecOn generalizing text with
  | _ n ih =>
    subst hlength
    rcases text with _ | ⟨c, tail⟩
    · exact ⟨[], [], rfl, .nil, .inl .nil⟩
    by_cases hblank : isBlank c = true
    · obtain ⟨gap, rest, rfl, hgap, hrest⟩ := ih tail.length (Nat.lt_succ_self _) tail rfl
      exact ⟨c :: gap, rest, rfl, .blank hblank hgap, hrest⟩
    by_cases hhash : c = '#'
    · subst hhash
      by_cases hfeed : '\n' ∈ tail
      · obtain ⟨line, text, rfl, hline⟩ := List.eq_append_cons_of_mem hfeed
        have hlt : text.length < ('#' :: (line ++ '\n' :: text)).length := by
          simp only [List.length_cons, List.length_append]
          omega
        obtain ⟨gap, rest, rfl, hgap, hrest⟩ := ih text.length hlt text rfl
        exact ⟨'#' :: (line ++ '\n' :: gap), rest, by simp, .comment hline hgap, hrest⟩
      · exact ⟨[], '#' :: tail, rfl, .nil, .inl (.lastComment trivial hfeed)⟩
    · exact ⟨[], c :: tail, rfl, .nil, .inr ⟨c, tail, rfl, by simpa using hblank, hhash⟩⟩

/-- What stands at the front of a text, and what reading it comes to. -/
theorem exists_meets {l : Lexer} (h : l.names.Consistent) : ∃ gap rest, l.chars.rest = gap ++ rest ∧
    Layout False gap ∧ Meets l.names ⟨rest, l.chars.position.afterAll gap⟩ l.read.1 l.read.2 := by
  obtain ⟨⟨text, p⟩, names⟩ := l
  obtain ⟨gap, rest, rfl, hgap, hrest⟩ := exists_layout text
  refine ⟨gap, rest, rfl, hgap, ?_⟩
  rw [read_layout hgap]
  rcases hrest with hrest | ⟨c, tail, rfl, hblank, hhash⟩
  · rw [read_last hrest]
    exact .stop hrest
  · exact meets_start h hblank hhash tail _

end Lexer
end LambdaScript
