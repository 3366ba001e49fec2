import Mathlib.Data.List.Basic
import LambdaScript.Proofs.Words
/-!
# The strings that tokens leave behind

The tokens of a source number their texts in the order in which they stand (`Lexer.names_scan`). So
an interner grows by the texts that it did not hold, each once, in the order in which they first
occur (`Interner.strings_internAll`).
-/

namespace LambdaScript

namespace Interner

variable {names : Interner}

/-- Number strings, one after the other. -/
def internAll (names : Interner) (texts : List String) : Interner :=
  texts.foldl (fun names s => (names.intern s).2) names

/-- The strings that an interner does not hold, each once, where it first occurs. -/
def newTo (names : Interner) (texts : List String) : List String :=
  (texts.filter (· ∉ names.strings.toList)).eraseDups

theorem internAll_append (names : Interner) (xs ys : List String) :
    names.internAll (xs ++ ys) = (names.internAll xs).internAll ys :=
  List.foldl_append

theorem Made.internAll (h : names.Made) (texts : List String) : (names.internAll texts).Made := by
  induction texts generalizing names with
  | nil => exact h
  | cons s texts ih => exact ih (.intern s h)

theorem consistent_internAll (h : names.Consistent) (texts : List String) :
    (names.internAll texts).Consistent := by
  induction texts generalizing names with
  | nil => exact h
  | cons s texts ih => exact ih (consistent_intern h s)

theorem grows_internAll (names : Interner) (texts : List String) :
    names.Grows (names.internAll texts) := by
  induction texts generalizing names with
  | nil => exact .refl names
  | cons s texts ih => exact (grows_intern names s).trans (ih _)

theorem mem_strings_iff {s : String} : s ∈ names.strings.toList ↔ ∃ n, names.find? n = some s := by
  rw [Array.mem_toList_iff, Array.mem_iff_getElem?]
  exact ⟨fun ⟨i, hi⟩ => ⟨⟨i⟩, hi⟩, fun ⟨n, hn⟩ => ⟨n.index, hn⟩⟩

/-- Numbering one string: nothing is added if it is held, and else it comes last. -/
theorem strings_intern (h : names.Consistent) (s : String) :
    (names.intern s).2.strings.toList =
      names.strings.toList ++ if s ∈ names.strings.toList then [] else [s] := by
  by_cases hs : s ∈ names.strings.toList
  · obtain ⟨n, hn⟩ := mem_strings_iff.mp hs
    rw [intern_of_find? h hn, if_pos hs, List.append_nil]
  · have hnone : names.ids[s]? = none := by
      rw [Option.eq_none_iff_forall_ne_some]
      intro n hn
      exact hs (mem_strings_iff.mpr ⟨n, (h s n).mp hn⟩)
    rw [intern, hnone, if_neg hs]
    exact Array.toList_push

/-- What an interner holds after numbering some strings. -/
theorem strings_internAll (h : names.Consistent) (texts : List String) :
    (names.internAll texts).strings.toList = names.strings.toList ++ names.newTo texts := by
  induction texts generalizing names with
  | nil => simp [internAll, newTo]
  | cons s texts ih =>
    have hstep : names.internAll (s :: texts) = (names.intern s).2.internAll texts := rfl
    have hstrings := strings_intern h s
    rw [hstep, ih (consistent_intern h s), newTo, newTo, hstrings]
    by_cases hs : s ∈ names.strings.toList
    · rw [if_pos hs, List.append_nil, List.filter_cons_of_neg (by simpa using hs)]
    -- a new string is not new any more behind its first occurrence
    · rw [if_neg hs, List.filter_cons_of_pos (by simpa using hs), List.eraseDups_cons,
        List.filter_filter, List.append_assoc, List.singleton_append]
      refine congrArg (fun rest => names.strings.toList ++ s :: List.eraseDups rest) ?_
      refine List.filter_congr fun t _ => ?_
      by_cases hst : t = s <;> simp [hst]

end Interner

/-! ## Texts of tokens -/

/-- The string that a token holds, if it holds one. -/
def TokenKind.text? (names : Interner) (kind : TokenKind) : Option String :=
  kind.name?.map names.spelling

/-- The strings that tokens hold, in their order. -/
def textsOf (names : Interner) (tokens : List Token) : List String :=
  tokens.filterMap fun t => t.kind.text? names

theorem textsOf_append (names : Interner) (xs ys : List Token) :
    textsOf names (xs ++ ys) = textsOf names xs ++ textsOf names ys :=
  List.filterMap_append

theorem textsOf_cons (names : Interner) (t : Token) (tokens : List Token) :
    textsOf names (t :: tokens) = (t.kind.text? names).toList ++ textsOf names tokens := by
  rw [textsOf, List.filterMap_cons]
  cases t.kind.text? names <;> rfl

theorem TokenKind.Known.text?_eq {names later : Interner} {kind : TokenKind}
    (h : kind.Known names) (hgrows : names.Grows later) : kind.text? later = kind.text? names := by
  have halike := h.alike hgrows
  unfold text?
  cases hname : kind.name? with
  | none => rfl
  | some n => rw [Option.map_some, Option.map_some, halike n hname]

/-- Tokens that are known have the same texts later on. -/
theorem textsOf_of_grows {names later : Interner} {tokens : List Token}
    (h : ∀ t ∈ tokens, t.kind.Known names) (hgrows : names.Grows later) :
    textsOf later tokens = textsOf names tokens :=
  List.filterMap_congr fun t ht => (h t ht).text?_eq hgrows

namespace Lexer

theorem names_readKind {l : Lexer} (h : l.names.Consistent) (c : Char) :
    (l.readKind c).2.names = l.names.internAll
      ((l.readKind c).1.toOption.bind (·.text? (l.readKind c).2.names)).toList := by
  have hspelling := fun s => Interner.spelling_intern h s
  unfold readKind
  split
  · unfold readString
    dsimp only
    split
    · rfl
    · simp [Except.toOption, TokenKind.text?, TokenKind.name?, hspelling, Interner.internAll]
  split
  · rfl
  split
  · unfold readWord
    dsimp only
    split
    · rfl
    · simp [Except.toOption, TokenKind.text?, TokenKind.name?, hspelling, Interner.internAll]
  split
  · rfl
  split
  · simp [readOperator, Except.toOption, TokenKind.text?, TokenKind.name?, hspelling,
      Interner.internAll]
  · rfl

/-- Reading a token numbers its text. -/
theorem names_read {l : Lexer} (h : l.names.Consistent) :
    l.read.2.names = l.names.internAll
      (l.read.1.toOption.join.bind (·.kind.text? l.read.2.names)).toList := by
  fun_induction read l with
  | case1 l chars hnil => rfl
  | case2 l chars tail hcons ih => exact ih h
  | case3 l chars c tail hcons hhash kind rest hkind =>
    have hnames := names_readKind (l := ⟨chars, l.names⟩) h c
    rw [hkind] at hnames
    exact hnames
  | case4 l chars c tail hcons hhash e rest hkind =>
    have hnames := names_readKind (l := ⟨chars, l.names⟩) h c
    rw [hkind] at hnames
    exact hnames

/-- The interner behind all tokens of a source. -/
theorem names_scan {l : Lexer} (h : l.names.Consistent) :
    l.scan.names = l.names.internAll (textsOf l.scan.names l.scan.tokens) := by
  fun_induction scan l with
  | case1 l t rest hread more ih =>
    have hnumbers := numbers_read h
    have hnames := names_read h
    rw [hread] at hnumbers hnames
    have hknown : t.kind.Known rest.names := hnumbers.known _ rfl
    have hgrows := (numbers_scan hnumbers.consistent).2.1
    have hfirst : rest.names = l.names.internAll (t.kind.text? more.names).toList := by
      rw [hknown.text?_eq hgrows]
      exact hnames
    rw [textsOf_cons, Interner.internAll_append, ← hfirst]
    exact ih hnumbers.consistent
  | case2 l rest hread =>
    have hnames := names_read h
    rw [hread] at hnames
    exact hnames
  | case3 l e rest hread =>
    have hnames := names_read h
    rw [hread] at hnames
    exact hnames

end Lexer
end LambdaScript
