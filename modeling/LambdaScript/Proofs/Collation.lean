import Mathlib.Data.List.Lex
import Mathlib.Data.String.Basic
import LambdaScript.Proofs.Cursor
/-!
# The order of texts

Texts are ordered by their characters from the left, and characters by their codes. The bytes of a
text are in the same order: where two characters differ, so do their bytes, and the first byte that
differs is the less in the lesser character (`utf8EncodeChar_append_lt`). Hence it makes no
difference whether texts are compared by characters, by codes or by bytes (`utf8Bytes_lt_iff`,
`codes_lt_iff`).
-/

namespace LambdaScript

/-- The codes of the characters of a text. -/
def codes (text : List Char) : List Nat := text.map Char.toNat

theorem cons_lt_cons_ofNat {n m : Nat} {xs ys : List UInt8} (hn : n < 256) (hm : m < 256)
    (hle : n ≤ m) (htail : n = m → xs < ys) : UInt8.ofNat n :: xs < UInt8.ofNat m :: ys := by
  rw [List.cons_lt_cons_iff]
  rcases Nat.lt_or_eq_of_le hle with hlt | rfl
  · left
    rw [UInt8.lt_iff_toNat_lt, UInt8.toNat_ofNat', UInt8.toNat_ofNat']
    omega
  · exact .inr ⟨rfl, htail rfl⟩

theorem utf8EncodeChar_append_lt {c d : Char} (h : c < d) (xs ys : List UInt8) :
    String.utf8EncodeChar c ++ xs < String.utf8EncodeChar d ++ ys := by
  have hcode : c.val.toNat < d.val.toNat := h
  have hvalid : d.val.toNat < 0x110000 := by
    rcases d.valid with h | h <;> omega
  simp only [String.utf8EncodeChar]
  generalize c.val.toNat = v at *
  generalize d.val.toNat = w at *
  split_ifs
  -- a longer character begins with a greater byte, and of one length the lesser code has the lesser
  -- byte where they first differ
  all_goals
    repeat first
      | exact absurd hcode (by omega)
      | refine cons_lt_cons_ofNat (by omega) (by omega) (by omega) fun _ => ?_

theorem utf8Bytes_lt {s t : List Char} (h : s < t) : utf8Bytes s < utf8Bytes t := by
  induction h with
  | @nil c t =>
    have hne := String.utf8EncodeChar_ne_nil (c := c)
    rw [utf8Bytes_cons]
    cases hbytes : String.utf8EncodeChar c with
    | nil => exact absurd hbytes hne
    | cons b bs => exact .nil
  | rel h =>
    rw [utf8Bytes_cons, utf8Bytes_cons]
    exact utf8EncodeChar_append_lt h _ _
  | cons _ ih =>
    rw [utf8Bytes_cons, utf8Bytes_cons]
    exact List.append_left_lt ih

theorem codes_lt {s t : List Char} (h : s < t) : codes s < codes t := by
  induction h with
  | nil => exact .nil
  | rel h => exact .rel h
  | cons _ ih => exact .cons ih

/-- The codes of texts are in the order of their characters. -/
theorem codes_lt_iff {s t : List Char} : codes s < codes t ↔ s < t := by
  refine ⟨fun h => ?_, codes_lt⟩
  rcases lt_trichotomy s t with hlt | rfl | hgt
  · exact hlt
  · exact absurd h (List.lt_irrefl _)
  · exact absurd h (List.lt_asymm (codes_lt hgt))

/-- The bytes of texts are in the order of their characters. -/
theorem utf8Bytes_lt_iff {s t : List Char} : utf8Bytes s < utf8Bytes t ↔ s < t := by
  refine ⟨fun h => ?_, utf8Bytes_lt⟩
  rcases lt_trichotomy s t with hlt | rfl | hgt
  · exact hlt
  · exact absurd h (List.lt_irrefl _)
  · exact absurd h (List.lt_asymm (utf8Bytes_lt hgt))

/-- The bytes of a string are those of its characters. -/
theorem toUTF8_data_toList (s : String) : s.toUTF8.data.toList = utf8Bytes s.toList := by
  conv => lhs; rw [← String.ofList_toList (s := s)]
  rw [String.toUTF8_eq_toByteArray, String.toByteArray_ofList, List.utf8Encode,
    List.data_toByteArray, List.toList_toArray]
  rfl

end LambdaScript
