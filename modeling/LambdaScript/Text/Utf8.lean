/-!
# Bytes as text

`decodeLossy` reads bytes as UTF-8 and puts the replacement character wherever they are none: once
for every longest piece that could still have begun a character, and once for any other byte.
-/

namespace LambdaScript.Text

/-- How a character may begin: how many bytes follow the first one, and the range of the second.
No longer form than needed, no surrogate and nothing above the last code point can begin. -/
def leadByte? (b : UInt8) : Option (Nat × UInt8 × UInt8) :=
  if 0xc2 ≤ b && b ≤ 0xdf then some (1, 0x80, 0xbf)
  else if b == 0xe0 then some (2, 0xa0, 0xbf)
  else if b == 0xed then some (2, 0x80, 0x9f)
  else if 0xe1 ≤ b && b ≤ 0xef then some (2, 0x80, 0xbf)
  else if b == 0xf0 then some (3, 0x90, 0xbf)
  else if 0xf1 ≤ b && b ≤ 0xf3 then some (3, 0x80, 0xbf)
  else if b == 0xf4 then some (3, 0x80, 0x8f)
  else none

/-- Stands for bytes that are no text. -/
def replacement : Char := '\ufffd'

/-- A character under way: the code point so far, how many bytes are missing, and the range in which
the next of them has to lie. -/
structure Pending where
  code : Nat
  missing : Nat
  low : UInt8
  high : UInt8

/-- The first byte of a character: what is read by it and what is under way behind it. -/
def firstByte (b : UInt8) : List Char × Option Pending :=
  if b < 0x80 then ([Char.ofNat b.toNat], none)
  else match leadByte? b with
    | none => ([replacement], none)
    | some (missing, low, high) =>
      ([], some ⟨b.toNat % Nat.pow 2 (6 - missing), missing, low, high⟩)

/-- A byte behind a character under way, or at the beginning of one. -/
def nextByte (b : UInt8) : Option Pending → List Char × Option Pending
  | none => firstByte b
  | some p =>
    if p.low ≤ b && b ≤ p.high then
      let code := p.code * 64 + (b.toNat - 0x80)
      if p.missing ≤ 1 then ([Char.ofNat code], none)
      else ([], some ⟨code, p.missing - 1, 0x80, 0xbf⟩)
    else
      let (read, pending) := firstByte b
      (replacement :: read, pending)

/-- Bytes read as UTF-8, behind a character under way if there is one. -/
def decodeFrom (pending : Option Pending) : List UInt8 → List Char
  | [] => if pending.isSome then [replacement] else []
  | b :: bytes =>
    let (read, pending) := nextByte b pending
    read ++ decodeFrom pending bytes

/-- Bytes read as UTF-8, with replacement characters where they are none. -/
def decodeLossy (bytes : ByteArray) : String := String.ofList (decodeFrom none bytes.toList)

example : decodeFrom none [0x61, 0xff, 0xe4, 0xb8, 0xad, 0xe4, 0xb8, 0x62] =
    ['a', replacement, '中', replacement, 'b'] := by
  decide +kernel

end LambdaScript.Text
