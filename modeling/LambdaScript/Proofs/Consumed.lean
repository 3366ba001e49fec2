import LambdaScript.Proofs.Positions
/-!
# What a character stream has read

Any calls may be made on a character stream, in any order. What they have taken from it
(`CharStream.takenBy`) is the front of the source, and everything that the stream knows of its place
can be told from that text (`CharStream.readUpTo_behindCalls`): the offset from its size, the line
from its line feeds, the column from its last line. Nothing is taken twice or left out, whether it
is taken one character at a time, as a run or as a line.
-/

namespace LambdaScript

/-- Bytes are counted as strings count them. -/
theorem utf8ByteSize_ofList (text : List Char) :
    (String.ofList text).utf8ByteSize = byteCount text := by
  induction text with
  | nil => rfl
  | cons c text ih =>
    rw [String.ofList_cons, String.utf8ByteSize_append, ih, byteCount]
    simp

/-- The longest run at the front of `text` all of whose characters have the property `p`. -/
structure LongestRun (p : Char → Bool) (text run : List Char) : Prop where
  isPrefix : run <+: text
  all : ∀ c ∈ run, p c = true
  longest : ∀ other, other <+: text → (∀ c ∈ other, p c = true) → other <+: run

theorem longestRun_takeWhile (p : Char → Bool) (text : List Char) :
    LongestRun p text (text.takeWhile p) := by
  refine ⟨List.takeWhile_prefix p, List.all_eq_true.mp List.all_takeWhile, ?_⟩
  rintro other ⟨tail, rfl⟩ hp
  rw [List.takeWhile_append_of_pos hp]
  exact List.prefix_append other _

namespace CharStream

/-- A call on a character stream: a request, or a question about its place. -/
inductive Call where
  | request (r : Request)
  | atEnd
  | fail (fault : LexFault)

/-- The stream behind a call. -/
def behindCall (s : CharStream) : Call → CharStream
  | .request r => s.behind r
  | .atEnd | .fail _ => s

/-- The characters that a call takes. -/
def takenByCall (s : CharStream) : Call → List Char
  | .request r => s.taken r
  | .atEnd | .fail _ => []

/-- The stream behind some calls. -/
def behindCalls (s : CharStream) : List Call → CharStream
  | [] => s
  | call :: calls => (s.behindCall call).behindCalls calls

/-- What some calls take, one behind the other. -/
def takenBy (s : CharStream) : List Call → List Char
  | [] => []
  | call :: calls => s.takenByCall call ++ (s.behindCall call).takenBy calls

/-- The stream has read `consumed` of the source, and is about to read on behind it. -/
structure ReadUpTo (source : String) (consumed : List Char) (s : CharStream) : Prop where
  split : source.toList = consumed ++ s.rest
  offset : s.offset = (String.ofList consumed).utf8ByteSize
  line : s.position.line = 1 + consumed.count '\n'
  column : s.position.column = (lastLine consumed).length
  atEnd : s.atEnd = true ↔ consumed = source.toList
  peek : s.peek = none ↔ consumed = source.toList
  run (p : Char → Bool) : LongestRun p s.rest (s.eatWhile p).1
  skipLine : s.skipLine = (s.eatWhile (· != '\n')).2.next.2
  fail (fault : LexFault) : s.fail fault = ⟨fault, 1 + consumed.count '\n',
    (lastLine consumed).length, (String.ofList consumed).utf8ByteSize⟩

theorem takes_behindCall (s : CharStream) (call : Call) :
    s.Takes (s.takenByCall call) (s.behindCall call) := by
  cases call with
  | request r => exact s.takes_behind r
  | atEnd => exact .nothing s
  | fail fault => exact .nothing s

theorem takes_behindCalls (s : CharStream) (calls : List Call) :
    s.Takes (s.takenBy calls) (s.behindCalls calls) := by
  induction calls generalizing s with
  | nil => exact .nothing s
  | cons call calls ih => exact (s.takes_behindCall call).trans (ih _)

/-- The source has been read as soon as there is nothing left. -/
theorem consumed_eq_iff {text consumed : List Char} {s : CharStream}
    (hsplit : text = consumed ++ s.rest) : consumed = text ↔ s.rest = [] := by
  rw [hsplit, List.self_eq_append_right]

/-- Behind characters of the source, a stream knows its place. -/
theorem Takes.readUpTo {source : String} {consumed : List Char} {s : CharStream}
    (h : (ofString source).Takes consumed s) (hsize : byteCount source.toList < maxOffset) :
    ReadUpTo source consumed s := by
  have hsplit : source.toList = consumed ++ s.rest := h.rest
  have hposition : s.position =
      ⟨byteCount consumed, 1 + consumed.count '\n', (lastLine consumed).length⟩ :=
    h.position.trans (Position.afterAll_start consumed)
  have hbytes : byteCount consumed ≤ maxOffset := by
    rw [hsplit, byteCount_append] at hsize
    omega
  have hoffset : s.offset = (String.ofList consumed).utf8ByteSize := by
    rw [offset, hposition, utf8ByteSize_ofList]
    exact clampOffset_of_le hbytes
  constructor
  · exact hsplit
  · exact hoffset
  · rw [hposition]
  · rw [hposition]
  · rw [consumed_eq_iff hsplit, CharStream.atEnd, List.isEmpty_iff]
  · rw [consumed_eq_iff hsplit, CharStream.peek, List.head?_eq_none_iff]
  · exact fun p => longestRun_takeWhile p s.rest
  · exact s.skipLine_eq_next
  · intro fault
    rw [CharStream.fail, hoffset, hposition]

/-- Behind any calls, a stream has read exactly what these have taken, and its place is that of this
text in the source: its size in bytes, its line feeds and the characters behind the last one. There
the longest run is taken where a run is asked for, and a line is skipped as if its characters and
its line feed were taken one by one. -/
theorem readUpTo_behindCalls {source : String} (hsize : byteCount source.toList < maxOffset)
    (calls : List Call) :
    ReadUpTo source ((ofString source).takenBy calls) ((ofString source).behindCalls calls) :=
  ((ofString source).takes_behindCalls calls).readUpTo hsize

/-- A line is skipped from the middle of it, between letters of two and of four bytes. -/
theorem readUpTo_umlaut :
    (ofString "aé# ü𝄞\nöb").takenBy [.request .next, .request (.eatWhile (· != '#')), .atEnd,
      .request .skipLine, .request .peek, .fail .unterminatedString, .request .next] =
        "aé# ü𝄞\nö".toList ∧
    (ofString "aé# ü𝄞\nöb").behindCalls [.request .next, .request (.eatWhile (· != '#')), .atEnd,
      .request .skipLine, .request .peek, .fail .unterminatedString, .request .next] =
        ⟨['b'], ⟨14, 2, 1⟩⟩ ∧
    ReadUpTo "aé# ü𝄞\nöb" "aé# ü𝄞\nö".toList ⟨['b'], ⟨14, 2, 1⟩⟩ := by
  refine ⟨by decide, by decide, ?_⟩
  exact readUpTo_behindCalls (by decide) [.request .next, .request (.eatWhile (· != '#')), .atEnd,
    .request .skipLine, .request .peek, .fail .unterminatedString, .request .next]

end CharStream

end LambdaScript
