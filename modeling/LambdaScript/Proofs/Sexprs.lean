import LambdaScript.Text.Quoted
import LambdaScript.Proofs.Locality
/-!
# Words, quoted texts and brackets

A dump is an `SExpr`: a word, a quoted text, or a form in brackets with a head and parts. It is
written on one line, a blank before each part, and what is written can be read in one way only
(`SExpr.text_inj`): words have no blanks, brackets or quotes in them, so they end where one of these
stands, and a quoted text ends at the first quote that is not escaped (`Text.quoted_inj`).
-/

namespace LambdaScript

/-! ## Quoted texts -/

namespace Text

/-- The number that a hexadecimal digit stands for. -/
def hexDigit (c : Char) : Nat := if c.isDigit then c.toNat - 48 else c.toNat - 87

/-- The number that hexadecimal digits spell. -/
def valueOfHex (run : List Char) : Nat := run.foldl (fun n c => 16 * n + hexDigit c) 0

theorem hexDigit_digitChar {n : Nat} (h : n < 16) :
    hexDigit n.digitChar = n ∧ n.digitChar ≠ '\x7d' := by
  have hall : ∀ n < 16, hexDigit n.digitChar = n ∧ n.digitChar ≠ '\x7d' := by decide
  exact hall n h

/-- Hexadecimal digits spell the number that they were made from, and no brace is among them. -/
theorem toDigits_sixteen (n : Nat) :
    valueOfHex (Nat.toDigits 16 n) = n ∧ '\x7d' ∉ Nat.toDigits 16 n := by
  induction n using Nat.strongRecOn with
  | ind n ih =>
    rw [Nat.toDigits_eq_if (by decide)]
    by_cases hn : n < 16
    · obtain ⟨hvalue, hne⟩ := hexDigit_digitChar hn
      rw [if_pos hn]
      refine ⟨?_, fun hmem => hne (List.mem_singleton.mp hmem).symm⟩
      show 16 * 0 + hexDigit n.digitChar = n
      omega
    · obtain ⟨hvalue, hne⟩ := hexDigit_digitChar (Nat.mod_lt n (by decide : 0 < 16))
      obtain ⟨ihvalue, ihne⟩ := ih (n / 16) (by omega)
      rw [if_neg hn]
      constructor
      · rw [valueOfHex, List.foldl_append]
        show 16 * valueOfHex (Nat.toDigits 16 (n / 16)) + hexDigit (n % 16).digitChar = n
        omega
      · rw [List.mem_append, List.mem_singleton, not_or]
        exact ⟨ihne, hne.symm⟩

/-- What a backslash and the characters behind it stand for, and what is left. -/
def unescapeBehind : List Char → Option (Char × List Char)
  | '0' :: rest => some ('\x00', rest)
  | 't' :: rest => some ('\t', rest)
  | 'r' :: rest => some ('\r', rest)
  | 'n' :: rest => some ('\n', rest)
  | 'u' :: rest => some (Char.ofNat (valueOfHex ((rest.drop 1).takeWhile (· != '\x7d'))),
      ((rest.drop 1).dropWhile (· != '\x7d')).drop 1)
  | c :: rest => some (c, rest)
  | [] => none

/-- The first character of a text that is quoted, and what is left. -/
def unescape : List Char → Option (Char × List Char)
  | c :: rest => if c = '\\' then unescapeBehind rest else some (c, rest)
  | [] => none

theorem unescapeBehind_codePoint (c : Char) (rest : List Char) :
    unescapeBehind ('u' :: '\x7b' :: (Nat.toDigits 16 c.toNat ++ '\x7d' :: rest)) =
      some (c, rest) := by
  obtain ⟨hvalue, hbrace⟩ := toDigits_sixteen c.toNat
  have hne : ∀ d ∈ Nat.toDigits 16 c.toNat, (d != '\x7d') = true := fun d hd =>
    bne_iff_ne.mpr fun heq => hbrace (heq ▸ hd)
  rw [unescapeBehind, List.drop_succ_cons, List.drop_zero, List.takeWhile_append_of_pos hne,
    List.dropWhile_append_of_pos hne, List.takeWhile_cons_of_neg (by decide),
    List.dropWhile_cons_of_neg (by decide), List.append_nil, hvalue, Char.ofNat_toNat,
    List.drop_succ_cons, List.drop_zero]

/-- A character can be told from its escaped form. -/
theorem unescape_escape (c : Char) (rest : List Char) :
    unescape (escape quoteMark c ++ rest) = some (c, rest) := by
  rw [escape]
  split
  · -- the quote and the backslash stand for themselves behind a backslash
    rename_i hc
    rw [Bool.or_eq_true, decide_eq_true_iff, decide_eq_true_iff] at hc
    rcases hc with rfl | rfl <;> rfl
  rename_i hplain
  rw [Bool.or_eq_true, decide_eq_true_iff, decide_eq_true_iff, not_or] at hplain
  iterate 4
    split
    · rename_i hc
      rw [hc]
      rfl
  split
  · rw [codePointEscape, List.cons_append, List.cons_append, List.cons_append, List.append_assoc]
    exact unescapeBehind_codePoint c rest
  · rw [List.singleton_append, unescape, if_neg hplain.2]

/-- No escaped form begins with the quote. -/
theorem escape_append_ne (c : Char) (rest rest' : List Char) :
    escape quoteMark c ++ rest ≠ quoteMark :: rest' := by
  intro heq
  have hread := unescape_escape c rest
  rw [heq] at hread
  have hc : quoteMark = c := (Prod.mk.inj (Option.some.inj hread)).1
  rw [← hc] at heq
  have hhead : '\\' = quoteMark := (List.cons.inj heq).1
  contradiction

theorem flatMap_escape_inj {xs ys rest rest' : List Char}
    (h : xs.flatMap (escape quoteMark) ++ quoteMark :: rest =
      ys.flatMap (escape quoteMark) ++ quoteMark :: rest') : xs = ys ∧ rest = rest' := by
  induction xs generalizing ys with
  | nil =>
    cases ys with
    | nil => exact ⟨rfl, (List.cons.inj h).2⟩
    | cons y ys =>
      rw [List.flatMap_cons, List.append_assoc] at h
      exact absurd h.symm (escape_append_ne y _ _)
  | cons x xs ih =>
    cases ys with
    | nil =>
      rw [List.flatMap_cons, List.append_assoc] at h
      exact absurd h (escape_append_ne x _ _)
    | cons y ys =>
      rw [List.flatMap_cons, List.flatMap_cons, List.append_assoc, List.append_assoc] at h
      have hread := unescape_escape x (xs.flatMap (escape quoteMark) ++ quoteMark :: rest)
      rw [h, unescape_escape] at hread
      obtain ⟨hxy, hbehind⟩ := Prod.mk.inj (Option.some.inj hread)
      obtain ⟨hxs, hrest⟩ := ih hbehind.symm
      exact ⟨by rw [hxy, hxs], hrest⟩

theorem quoted_append (s : String) (rest : List Char) : (quoted s).toList ++ rest =
    quoteMark :: (s.toList.flatMap (escape quoteMark) ++ quoteMark :: rest) := by
  rw [quoted, String.toList_ofList, List.cons_append, List.append_assoc]
  rfl

/-- A text in quotes is told from what stands behind it. -/
theorem quoted_inj {s s' : String} {rest rest' : List Char}
    (h : (quoted s).toList ++ rest = (quoted s').toList ++ rest') : s = s' ∧ rest = rest' := by
  rw [quoted_append, quoted_append] at h
  obtain ⟨hchars, hrest⟩ := flatMap_escape_inj (List.cons.inj h).2
  exact ⟨String.toList_inj.mp hchars, hrest⟩

end Text

/-! ## Words, texts and brackets -/

/-- What a dump is made of: words, quoted texts, and forms in brackets, which have a head and
parts. -/
inductive SExpr where
  | word (text : String)
  | quoted (contents : String)
  | form (head : String) (parts : List SExpr)

namespace SExpr

mutual

/-- How it is written. -/
def text : SExpr → List Char
  | word w => w.toList
  | quoted s => (Text.quoted s).toList
  | form head parts => '(' :: (head.toList ++ (textAll parts ++ [')']))

/-- How parts are written, a blank before each. -/
def textAll : List SExpr → List Char
  | [] => []
  | part :: parts => ' ' :: (text part ++ textAll parts)

end

/-- No blank, bracket or quote. -/
def isPlain (c : Char) : Bool := c != ' ' && c != '(' && c != ')' && c != quoteMark

/-- All words can be told from what stands around them. -/
inductive Readable : SExpr → Prop where
  | word {w : String} (hne : w ≠ "") (h : ∀ c ∈ w.toList, isPlain c = true) : Readable (word w)
  | quoted (s : String) : Readable (quoted s)
  | form {head : String} {parts : List SExpr} (hhead : ∀ c ∈ head.toList, isPlain c = true)
      (hparts : ∀ part ∈ parts, Readable part) : Readable (form head parts)

/-- A word ends here. -/
def Ends (rest : List Char) : Prop := ∀ c, rest.head? = some c → isPlain c = false

theorem ends_textAll (parts : List SExpr) (rest : List Char) :
    Ends (textAll parts ++ ')' :: rest) := by
  intro c hc
  cases parts with
  | nil =>
    cases hc
    rfl
  | cons part parts =>
    cases hc
    rfl

/-- A word is told from what stands behind it. -/
theorem word_inj {w w' rest rest' : List Char} (hw : ∀ c ∈ w, isPlain c = true)
    (hw' : ∀ c ∈ w', isPlain c = true) (hrest : Ends rest) (hrest' : Ends rest')
    (h : w ++ rest = w' ++ rest') : w = w' ∧ rest = rest' := by
  have htake := congrArg Prod.fst (CharStream.eatWhile_append .start hw hrest)
  rw [h, CharStream.eatWhile_append .start hw' hrest'] at htake
  have heq : w' = w := htake
  subst heq
  exact ⟨rfl, List.append_cancel_left h⟩

/-- A quoted text and a form begin with characters that words do not have. -/
theorem text_word_ne {w : String} {c : Char} (h : Readable (word w)) (hc : isPlain c = false)
    (rest rest' : List Char) : text (word w) ++ rest ≠ c :: rest' := by
  cases h with | word hne hw =>
  obtain ⟨d, behind, hchars⟩ := List.exists_cons_of_ne_nil (mt String.toList_eq_nil_iff.mp hne)
  intro heq
  rw [text, hchars, List.cons_append] at heq
  have hd := hw d (by rw [hchars]; exact List.mem_cons_self)
  rw [(List.cons.inj heq).1, hc] at hd
  contradiction

theorem text_quoted_append (s : String) (rest : List Char) :
    text (quoted s) ++ rest = quoteMark :: (s.toList.flatMap (Text.escape quoteMark) ++
      quoteMark :: rest) := by
  rw [text, Text.quoted_append]

theorem text_form_append (head : String) (parts : List SExpr) (rest : List Char) :
    text (form head parts) ++ rest =
      '(' :: (head.toList ++ (textAll parts ++ ')' :: rest)) := by
  rw [text, List.cons_append, List.append_assoc, List.append_assoc, List.singleton_append]

mutual

/-- What is written can be read in one way only, and it is known where it ends. -/
theorem text_inj {s s' : SExpr} (hs : Readable s) (hs' : Readable s') {rest rest' : List Char}
    (hrest : Ends rest) (hrest' : Ends rest') (h : text s ++ rest = text s' ++ rest') :
    s = s' ∧ rest = rest' := by
  -- the first character tells what it is, and then each kind is known to its end
  cases s with
  | word w =>
    cases s' with
    | word w' =>
      rw [text, text] at h
      cases hs with | word _ hw =>
      cases hs' with | word _ hw' =>
      obtain ⟨heq, hbehind⟩ := word_inj hw hw' hrest hrest' h
      exact ⟨by rw [String.toList_inj.mp heq], hbehind⟩
    | quoted s' =>
      rw [text_quoted_append] at h
      exact absurd h (text_word_ne hs (by decide) _ _)
    | form head' parts' =>
      rw [text_form_append] at h
      exact absurd h (text_word_ne hs (by decide) _ _)
  | quoted s =>
    cases s' with
    | word w' =>
      rw [text_quoted_append] at h
      exact absurd h.symm (text_word_ne hs' (by decide) _ _)
    | quoted s' =>
      rw [text, text] at h
      obtain ⟨heq, hbehind⟩ := Text.quoted_inj h
      exact ⟨by rw [heq], hbehind⟩
    | form head' parts' =>
      rw [text_quoted_append, text_form_append] at h
      exact absurd (List.cons.inj h).1 (by decide)
  | form head parts =>
    cases s' with
    | word w' =>
      rw [text_form_append] at h
      exact absurd h.symm (text_word_ne hs' (by decide) _ _)
    | quoted s' =>
      rw [text_quoted_append, text_form_append] at h
      exact absurd (List.cons.inj h).1 (by decide)
    | form head' parts' =>
      rw [text_form_append, text_form_append] at h
      cases hs with | form hhead hparts =>
      cases hs' with | form hhead' hparts' =>
      obtain ⟨heq, hbehind⟩ := word_inj hhead hhead' (ends_textAll parts rest)
        (ends_textAll parts' rest') (List.cons.inj h).2
      obtain ⟨hall, hrest⟩ := textAll_inj hparts hparts' hbehind
      exact ⟨by rw [String.toList_inj.mp heq, hall], hrest⟩

theorem textAll_inj {parts parts' : List SExpr} (hparts : ∀ part ∈ parts, Readable part)
    (hparts' : ∀ part ∈ parts', Readable part) {rest rest' : List Char}
    (h : textAll parts ++ ')' :: rest = textAll parts' ++ ')' :: rest') :
    parts = parts' ∧ rest = rest' := by
  cases parts with
  | nil =>
    cases parts' with
    | nil => exact ⟨rfl, (List.cons.inj h).2⟩
    | cons part' parts' =>
      rw [textAll, textAll] at h
      exact absurd (List.cons.inj h).1 (by decide)
  | cons part parts =>
    cases parts' with
    | nil =>
      rw [textAll, textAll] at h
      exact absurd (List.cons.inj h).1 (by decide)
    | cons part' parts' =>
      rw [textAll, textAll, List.cons_append, List.cons_append, List.append_assoc,
        List.append_assoc] at h
      obtain ⟨hpart, hothers⟩ := List.forall_mem_cons.mp hparts
      obtain ⟨hpart', hothers'⟩ := List.forall_mem_cons.mp hparts'
      obtain ⟨heq, hall⟩ := text_inj hpart hpart' (ends_textAll parts rest)
        (ends_textAll parts' rest') (List.cons.inj h).2
      obtain ⟨hall, hrest⟩ := textAll_inj hothers hothers' hall
      exact ⟨by rw [heq, hall], hrest⟩

end

end SExpr

end LambdaScript
