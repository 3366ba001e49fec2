import LambdaScript.Source.Span
/-!
# Reading a source character by character

A `CharStream` is the text still to be read and the position reached. `Position.after` says how one
character moves the position: a line feed starts a new line, anything else is one more column. The
operations that take many characters at once are stated on the remaining text:

* `CharStream.eatWhile` takes the longest run of characters with a property;
* `CharStream.skipLine` drops the rest of the line and its line feed.
-/

namespace LambdaScript

/-- A place in a source: bytes read, line (from 1) and characters read on that line. -/
structure Position where
  bytes : Nat
  line : Nat
  column : Nat
deriving DecidableEq, Inhabited

namespace Position

/-- The first character of a source. -/
def start : Position := ⟨0, 1, 0⟩

/-- The position behind the character `c`. -/
def after (p : Position) (c : Char) : Position :=
  if c = '\n' then ⟨p.bytes + c.utf8Size, p.line + 1, 0⟩
  else ⟨p.bytes + c.utf8Size, p.line, p.column + 1⟩

/-- The position behind a text. -/
def afterAll (p : Position) (text : List Char) : Position := text.foldl after p

instance : ToString Position := ⟨fun p => s!"{p.line}:{p.column}"⟩

end Position

/-- The text still to be read and the position reached. -/
structure CharStream where
  rest : List Char
  position : Position
deriving DecidableEq, Inhabited

namespace CharStream

/-- A stream at the first character of `source`. -/
def ofString (source : String) : CharStream := ⟨source.toList, .start⟩

/-- The current character, left in the stream. -/
def peek (s : CharStream) : Option Char := s.rest.head?

/-- The current character and the stream behind it. -/
def next (s : CharStream) : Option Char × CharStream :=
  match s.rest with
  | [] => (none, s)
  | c :: rest => (some c, ⟨rest, s.position.after c⟩)

/-- Every character has been read. -/
def atEnd (s : CharStream) : Bool := s.rest.isEmpty

/-- Byte offset of the current character. -/
def offset (s : CharStream) : Nat := clampOffset s.position.bytes

/-- The longest run of characters with the property `p`, and the stream behind it. -/
def eatWhile (p : Char → Bool) (s : CharStream) : List Char × CharStream :=
  let run := s.rest.takeWhile p
  (run, ⟨s.rest.dropWhile p, s.position.afterAll run⟩)

/-- The stream behind the next line feed, or at the end of the source if there is none. -/
def skipLine (s : CharStream) : CharStream :=
  let line := s.rest.takeWhile (· != '\n')
  match s.rest.dropWhile (· != '\n') with
  | [] => ⟨[], { s.position with
      bytes := s.position.bytes + byteCount line
      column := s.position.column + line.length }⟩
  | _ :: rest => ⟨rest, ⟨s.position.bytes + byteCount line + 1, s.position.line + 1, 0⟩⟩

/-- A line skipped from a non-empty stream leaves less to read. -/
theorem length_rest_skipLine_lt {s : CharStream} {c : Char} {rest : List Char}
    (h : s.rest = c :: rest) : s.skipLine.rest.length < s.rest.length := by
  have hdrop : (s.rest.dropWhile (· != '\n')).length ≤ s.rest.length :=
    (List.dropWhile_sublist _).length_le
  unfold skipLine
  split
  · simp [h]
  · next line rest hrest =>
    rw [hrest, List.length_cons] at hdrop
    exact hdrop

/-- A run that starts with the current character leaves less to read. -/
theorem length_rest_eatWhile_lt {s : CharStream} {p : Char → Bool} {c : Char} {rest : List Char}
    (h : s.rest = c :: rest) (hc : p c = true) :
    (s.eatWhile p).2.rest.length < s.rest.length := by
  have hdrop : (rest.dropWhile p).length ≤ rest.length := (List.dropWhile_sublist _).length_le
  simp only [eatWhile, h, List.dropWhile_cons, hc, ↓reduceIte, List.length_cons]
  omega

/-- Taking a run never lengthens what is left. -/
theorem length_rest_eatWhile_le (s : CharStream) (p : Char → Bool) :
    (s.eatWhile p).2.rest.length ≤ s.rest.length :=
  (List.dropWhile_sublist _).length_le

end CharStream

end LambdaScript
