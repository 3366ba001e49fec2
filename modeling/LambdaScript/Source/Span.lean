/-!
# Offsets and spans

A place in a source text is a byte offset into its UTF-8 form; a span is a pair of offsets. Offsets
are 32 bits wide: `clampOffset` is the one place where a longer text meets that bound.
-/

namespace LambdaScript

/-- The largest offset. -/
def maxOffset : Nat := 0xffffffff

/-- A count of bytes as an offset; anything too large becomes the largest one. -/
def clampOffset (bytes : Nat) : Nat := min bytes maxOffset

/-- Number of bytes of a text in UTF-8. -/
def byteCount : List Char → Nat
  | [] => 0
  | c :: text => c.utf8Size + byteCount text

/-- The range of bytes from `start` up to, not including, `stop`. -/
structure Span where
  start : Nat
  stop : Nat
deriving DecidableEq, BEq, ReflBEq, LawfulBEq, Inhabited

namespace Span

/-- The empty span at an offset. -/
def point (offset : Nat) : Span := ⟨offset, offset⟩

/-- The span of nothing in particular. -/
def dummy : Span := point 0

/-- Number of bytes; none if the span ends before it starts. -/
def size (s : Span) : Nat := s.stop - s.start

/-- The span holds no byte. -/
def isEmpty (s : Span) : Bool := s.stop ≤ s.start

/-- The least span that covers both. -/
def merge (s t : Span) : Span := ⟨min s.start t.start, max s.stop t.stop⟩

instance : ToString Span := ⟨fun s => s!"{s.start}..{s.stop}"⟩

end Span

end LambdaScript
