import LambdaScript.Source.CharStream
import LambdaScript.Text.Quoted
import LambdaScript.Token
/-!
# Cutting a source into tokens

A `Lexer` is a character stream and the interner that numbers the strings found. `Lexer.read` takes
the next token: it skips blanks and comments and then lets the first character decide between a
string, a number, a word, punctuation and an operator. `Lexer.tokens` reads to the end of the
source.

Reading a token leaves less of the source (`Lexer.length_rest_read_lt`), and nothing lengthens it
(`Lexer.length_rest_read_le`); this is why the loops end.
-/

namespace LambdaScript

/-- What is wrong with a source that cannot be cut into tokens. -/
inductive LexFault where
  /-- The source ends inside a string. -/
  | unterminatedString
  /-- No token begins with this character. -/
  | invalidCharacter (c : Char)
deriving DecidableEq

namespace LexFault

/-- The text of a fault, without its place. -/
def message : LexFault → String
  | unterminatedString => "unterminated string"
  | invalidCharacter c => "invalid character " ++ Text.quotedChar c

end LexFault

/-- A fault and where it was met. -/
structure LexError where
  fault : LexFault
  line : Nat
  column : Nat
  offset : Nat
deriving DecidableEq

namespace LexError

/-- The text of an error with line and column. -/
def message (e : LexError) : String :=
  e.fault.message ++ s!" ({e.line}:{e.column})"

end LexError

/-- The error for a fault at the current character; nothing is consumed. -/
def CharStream.fail (s : CharStream) (fault : LexFault) : LexError :=
  ⟨fault, s.position.line, s.position.column, s.offset⟩

/-! ## Character classes -/

/-- Characters between tokens. -/
def isBlank (c : Char) : Bool := c == ' ' || c == '\t' || c == '\n' || c == '\r'

/-- The digits `0` to `9`. -/
def isDigit (c : Char) : Bool := '0' ≤ c && c ≤ '9'

/-- First characters of words: the letters `a` to `z` and `A` to `Z` and the underscore. -/
def isWordStart (c : Char) : Bool := ('a' ≤ c && c ≤ 'z') || ('A' ≤ c && c ≤ 'Z') || c == '_'

/-- Later characters of words: also digits. -/
def isWordChar (c : Char) : Bool := isWordStart c || isDigit c

/-- Characters of operators. -/
def isOperatorChar (c : Char) : Bool :=
  c == '+' || c == '-' || c == '*' || c == '/' || c == '%' || c == '=' || c == '&' || c == '|' ||
    c == '<' || c == '>' || c == '!'

/-- The character that begins and ends a string. -/
abbrev quoteMark : Char := '\x22'

/-- The source still to be cut and the strings numbered so far. -/
structure Lexer where
  chars : CharStream
  names : Interner
deriving Inhabited

namespace Lexer

/-! ## One token, by its first character -/

/-- A string: all up to the next quote. Its contents are numbered only if the quote is there. -/
def readString (l : Lexer) : Except LexError TokenKind × Lexer :=
  let (contents, chars) := l.chars.next.2.eatWhile (· != quoteMark)
  match chars.rest with
  | [] => (.error (chars.fail .unterminatedString), ⟨chars, l.names⟩)
  | _ :: _ =>
    let (name, names) := l.names.intern (String.ofList contents)
    (.ok (.string name), ⟨chars.next.2, names⟩)

/-- A number: a run of digits. -/
def readNumber (l : Lexer) : TokenKind × Lexer :=
  let (digits, chars) := l.chars.eatWhile isDigit
  (.number (Decimal.ofDigits digits), ⟨chars, l.names⟩)

/-- A word: a reserved word or else an identifier. -/
def readWord (l : Lexer) : TokenKind × Lexer :=
  let (run, chars) := l.chars.eatWhile isWordChar
  let word := String.ofList run
  match Keyword.ofSpelling? word with
  | some keyword => (.keyword keyword, ⟨chars, l.names⟩)
  | none =>
    let (name, names) := l.names.intern word
    (.identifier name, ⟨chars, names⟩)

/-- An operator: a run of operator characters. -/
def readOperator (l : Lexer) : TokenKind × Lexer :=
  let (run, chars) := l.chars.eatWhile isOperatorChar
  let (name, names) := l.names.intern (String.ofList run)
  (.operator name, ⟨chars, names⟩)

/-- The token that begins with the current character `c`, which is no blank and opens no comment. -/
def readKind (l : Lexer) (c : Char) : Except LexError TokenKind × Lexer :=
  if c = quoteMark then l.readString
  else if isDigit c then l.readNumber.map .ok id
  else if isWordStart c then l.readWord.map .ok id
  else match Punct.ofChar? c with
    | some mark => (.ok (.punct mark), ⟨l.chars.next.2, l.names⟩)
    | none =>
      if isOperatorChar c then l.readOperator.map .ok id
      else (.error (l.chars.fail (.invalidCharacter c)), l)

/-- The next token, or none at the end of the source. -/
def read (l : Lexer) : Except LexError (Option Token) × Lexer :=
  let chars := (l.chars.eatWhile isBlank).2
  match _h : chars.rest with
  | [] => (.ok none, ⟨chars, l.names⟩)
  | c :: _ =>
    if c = '#' then read ⟨chars.skipLine, l.names⟩
    else
      match readKind ⟨chars, l.names⟩ c with
      | (.ok kind, l) => (.ok (some ⟨kind, ⟨chars.offset, l.chars.offset⟩⟩), l)
      | (.error e, l) => (.error e, l)
termination_by l.chars.rest.length
decreasing_by
  exact Nat.lt_of_lt_of_le (CharStream.length_rest_skipLine_lt _h)
    (CharStream.length_rest_eatWhile_le l.chars isBlank)

/-! ## Progress -/

theorem length_rest_next {s : CharStream} {c : Char} {rest : List Char} (h : s.rest = c :: rest) :
    s.next.2.rest = rest := by
  simp [CharStream.next, h]

/-- The token that begins with the current character takes that character at least; a failure does
not put anything back. -/
theorem length_rest_readKind {l : Lexer} {c : Char} {rest : List Char}
    (h : l.chars.rest = c :: rest) :
    (∀ kind, (l.readKind c).1 = .ok kind →
      (l.readKind c).2.chars.rest.length < l.chars.rest.length) ∧
    (l.readKind c).2.chars.rest.length ≤ l.chars.rest.length := by
  have hrest := length_rest_next h
  have hstring := CharStream.length_rest_eatWhile_le l.chars.next.2 (· != quoteMark)
  rw [hrest] at hstring
  have hlen : l.chars.rest.length = rest.length + 1 := by simp [h]
  unfold readKind
  split
  · unfold readString
    split
    next contents chars heat =>
    have hchars : chars = (l.chars.next.2.eatWhile (· != quoteMark)).2 := by rw [heat]
    subst hchars
    split
    · next hnil => simp [hnil]
    · next d tail hcons =>
      have htail := length_rest_next hcons
      have : (l.chars.next.2.eatWhile (· != quoteMark)).2.rest.length = tail.length + 1 := by
        simp [hcons]
      simp only [htail]
      constructor
      · intro _ _
        omega
      · omega
  · split
    · next hdigit =>
      have := CharStream.length_rest_eatWhile_lt h hdigit
      simp only [readNumber, Prod.map, id_eq]
      exact ⟨fun _ _ => this, Nat.le_of_lt this⟩
    · split
      · next hstart =>
        have := CharStream.length_rest_eatWhile_lt (p := isWordChar) h
          (by simp [isWordChar, hstart])
        unfold readWord
        simp only
        split <;> exact ⟨fun _ _ => this, Nat.le_of_lt this⟩
      · split
        · simp only [hrest]
          exact ⟨fun _ _ => by omega, by omega⟩
        · split
          · next hop =>
            have := CharStream.length_rest_eatWhile_lt h hop
            simp only [readOperator, Prod.map, id_eq]
            exact ⟨fun _ _ => this, Nat.le_of_lt this⟩
          · simp

/-- Reading never lengthens what is left, and a token shortens it. -/
theorem length_rest_read (l : Lexer) :
    (∀ t, l.read.1 = .ok (some t) → l.read.2.chars.rest.length < l.chars.rest.length) ∧
      l.read.2.chars.rest.length ≤ l.chars.rest.length := by
  fun_induction read l with
  | case1 l chars hnil => simp [hnil]
  | case2 l chars tail hcons ih =>
    have hskip := CharStream.length_rest_skipLine_lt hcons
    have hblank : chars.rest.length ≤ _ := CharStream.length_rest_eatWhile_le l.chars isBlank
    simp only at ih
    exact ⟨fun t ht => by have := ih.1 t ht; omega, by omega⟩
  | case3 l chars c tail hcons _ kind rest hkind =>
    have hblank : chars.rest.length ≤ _ := CharStream.length_rest_eatWhile_le l.chars isBlank
    have hread := (length_rest_readKind (l := ⟨chars, l.names⟩) hcons).1 kind (by rw [hkind])
    rw [hkind] at hread
    simp only at hread ⊢
    exact ⟨fun _ _ => by omega, by omega⟩
  | case4 l chars c tail hcons _ e rest hkind =>
    have hblank : chars.rest.length ≤ _ := CharStream.length_rest_eatWhile_le l.chars isBlank
    have hread := (length_rest_readKind (l := ⟨chars, l.names⟩) hcons).2
    rw [hkind] at hread
    simp only at hread ⊢
    exact ⟨fun _ h => by simp at h, by omega⟩

theorem length_rest_read_lt {l l' : Lexer} {t : Token} (h : l.read = (.ok (some t), l')) :
    l'.chars.rest.length < l.chars.rest.length := by
  have := (length_rest_read l).1 t (by rw [h])
  rwa [h] at this

theorem length_rest_read_le (l : Lexer) : l.read.2.chars.rest.length ≤ l.chars.rest.length :=
  (length_rest_read l).2

/-! ## All tokens -/

/-- The tokens up to the end of the source, behind those in `before`, which are held in reverse. -/
def collect (l : Lexer) (before : List Token) : Except LexError (List Token) × Lexer :=
  match _h : l.read with
  | (.ok (some t), rest) => collect rest (t :: before)
  | (.ok none, rest) => (.ok before.reverse, rest)
  | (.error e, rest) => (.error e, rest)
termination_by l.chars.rest.length
decreasing_by exact length_rest_read_lt _h

/-- All tokens of the source, or the error that keeps it from being cut. -/
def tokens (l : Lexer) : Except LexError (List Token) × Lexer := collect l []

end Lexer

/-- The tokens of a source, and the interner afterwards. -/
def lex (source : String) (names : Interner) : Except LexError (List Token) × Interner :=
  let (result, rest) := Lexer.tokens ⟨.ofString source, names⟩
  (result, rest.names)

end LambdaScript
