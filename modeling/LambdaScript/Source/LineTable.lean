import LambdaScript.Source.Span
/-!
# Lines and columns of byte offsets

`LineTable.ofText` notes the offset at which each line of a text starts. `LineTable.lineOf` finds
the line of an offset by halving, `LineTable.position` its line and column, and `LineTable.lineText`
the text of a line. Lines and columns count from 1, columns in characters.

`slice?` cuts a text at byte offsets, which have to fall between characters.
-/

namespace LambdaScript

/-! ## Cutting at byte offsets -/

/-- A text without its first `n` bytes, if these end between characters. -/
def dropBytes? : Nat → List Char → Option (List Char)
  | 0, text => some text
  | _ + 1, [] => none
  | n + 1, c :: text => if c.utf8Size ≤ n + 1 then dropBytes? (n + 1 - c.utf8Size) text else none

/-- The first `n` bytes of a text, if these end between characters. -/
def takeBytes? : Nat → List Char → Option (List Char)
  | 0, _ => some []
  | _ + 1, [] => none
  | n + 1, c :: text =>
    if c.utf8Size ≤ n + 1 then (takeBytes? (n + 1 - c.utf8Size) text).map (c :: ·) else none

/-- The part of a text from one offset to another, if both fall between characters and the first is
not behind the second. -/
def slice? (text : List Char) (start stop : Nat) : Option (List Char) :=
  if start ≤ stop then (dropBytes? start text).bind (takeBytes? (stop - start)) else none

/-- The part of a text from one offset to another; empty where there is none. -/
def slice (text : List Char) (start stop : Nat) : List Char := (slice? text start stop).getD []

/-! ## Line starts -/

/-- The offsets behind the line feeds of a text that begins at byte `offset`. -/
def lineStarts (offset : Nat) : List Char → List Nat
  | [] => []
  | c :: text =>
    let next := offset + c.utf8Size
    if c = '\n' then clampOffset next :: lineStarts next text else lineStarts next text

/-- The offset at which each line starts, in order. -/
structure LineTable where
  starts : Array Nat

namespace LineTable

/-- The table of a text: its first line starts at 0, and one more behind every line feed. -/
def ofText (text : List Char) : LineTable := ⟨(0 :: lineStarts 0 text).toArray⟩

/-- How many entries of an increasing array are at most `offset`, if there are at least `low` and at
most `high`. -/
def countUpTo (starts : Array Nat) (offset low high : Nat) (h : high ≤ starts.size) : Nat :=
  if hlt : low < high then
    have hmiddle : (low + high) / 2 < starts.size := by omega
    if starts[(low + high) / 2] ≤ offset then
      countUpTo starts offset ((low + high) / 2 + 1) high h
    else countUpTo starts offset low ((low + high) / 2) (by omega)
  else low
termination_by high - low

/-- The line of an offset: how many lines start at it or before it. -/
def lineOf (table : LineTable) (offset : Nat) : Nat :=
  max 1 (countUpTo table.starts offset 0 table.starts.size (Nat.le_refl _))

/-- The offset at which a line starts. -/
def lineStart (table : LineTable) (line : Nat) : Nat := table.starts.getD (line - 1) 0

/-- Line and column of an offset into `text`; an offset behind the end counts as the end. -/
def position (table : LineTable) (text : List Char) (offset : Nat) : Nat × Nat :=
  let offset := min offset (clampOffset (byteCount text))
  let line := table.lineOf offset
  (line, (slice text (table.lineStart line) offset).length + 1)

/-- Characters that end a line. -/
def isLineEnd (c : Char) : Bool := c == '\n' || c == '\r'

/-- A text without the characters at its end that end a line. -/
def trimLineEnd (text : List Char) : List Char := (text.reverse.dropWhile isLineEnd).reverse

/-- The text of a line without what ends it; empty if there is no such line. -/
def lineText (table : LineTable) (text : List Char) (line : Nat) : List Char :=
  if line = 0 then []
  else
    match table.starts[line - 1]? with
    | none => []
    | some start => trimLineEnd (slice text start (table.starts.getD line (byteCount text)))

end LineTable

end LambdaScript
