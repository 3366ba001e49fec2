import Mathlib.Data.List.DropRight
import LambdaScript.Diagnostic.Render
import LambdaScript.Proofs.Partition
/-!
# Colours only decorate

What is shown in colour is what is shown without, with some pieces between escape sequences: the two
are built in the same way, and `Styled` relates them at every step. So the sequences can be deleted
again, and each of them that begins a style has one behind it that ends it, with nothing but the
piece in between (`Renderer.colors_decorate`).

Nothing else that is shown may have an escape character in it. A piece is on one line if all
messages of labels are.
-/

namespace LambdaScript

namespace Style

/-- The character that every escape sequence begins with. -/
def escape : Char := '\x1b'

/-- The escape sequences that are used. -/
def sequences : List (List Char) := [opening error, opening bold, closing].map String.toList

/-- A text without the escape sequences in it. -/
def deleteSequences : List Char → List Char
  | [] => []
  | c :: text =>
    match sequences.find? (·.isPrefixOf (c :: text)) with
    | some sequence => deleteSequences (text.drop (sequence.length - 1))
    | none => c :: deleteSequences text
termination_by text => text.length

theorem exists_opening (style : Style) :
    ∃ tail, style.opening.toList = escape :: tail ∧ escape ∉ tail := by
  cases style <;> exact ⟨_, rfl, by decide⟩

theorem exists_of_mem_sequences {sequence : List Char} (h : sequence ∈ sequences) :
    ∃ tail, sequence = escape :: tail ∧ escape ∉ tail := by
  rcases h with _ | ⟨_, _ | ⟨_, _ | ⟨_, h⟩⟩⟩
  · exact exists_opening error
  · exact exists_opening bold
  · exact ⟨_, rfl, by decide⟩
  · contradiction

theorem deleteSequences_cons {c : Char} (hc : c ≠ escape) (text : List Char) :
    deleteSequences (c :: text) = c :: deleteSequences text := by
  have hnone : sequences.find? (·.isPrefixOf (c :: text)) = none := by
    refine List.find?_eq_none.mpr fun sequence hsequence hprefix => ?_
    obtain ⟨tail, rfl, -⟩ := exists_of_mem_sequences hsequence
    obtain ⟨rest, hrest⟩ := List.isPrefixOf_iff_prefix.mp hprefix
    exact hc (List.cons.inj hrest).1.symm
  rw [deleteSequences, hnone]

theorem deleteSequences_append {plain : List Char} (h : escape ∉ plain) (text : List Char) :
    deleteSequences (plain ++ text) = plain ++ deleteSequences text := by
  induction plain with
  | nil => rfl
  | cons c plain ih =>
    rw [List.mem_cons, not_or] at h
    rw [List.cons_append, deleteSequences_cons (Ne.symm h.1), ih h.2]
    rfl

theorem deleteSequences_opening (style : Style) (text : List Char) :
    deleteSequences (style.opening.toList ++ text) = deleteSequences text := by
  cases style <;> exact deleteSequences.eq_2 _ _

theorem deleteSequences_closing (text : List Char) :
    deleteSequences (closing.toList ++ text) = deleteSequences text :=
  deleteSequences.eq_2 _ _

theorem opening_inj {style style' : Style} {text text' : List Char}
    (h : style.opening.toList ++ text = style'.opening.toList ++ text') : text = text' := by
  cases style <;> cases style'
  · exact List.append_cancel_left h
  · simp [opening] at h
  · simp [opening] at h
  · exact List.append_cancel_left h

theorem closing_append_ne (style : Style) (text text' : List Char) :
    closing.toList ++ text ≠ style.opening.toList ++ text' := by
  cases style <;> simp [opening, closing]

end Style

open Style (escape deleteSequences)

/-- A text with styled pieces in it, and the same text without styles. If `oneLine` holds, no piece
has a line feed in it. -/
inductive Styled (oneLine : Prop) : List Char → List Char → Prop where
  | nil : Styled oneLine [] []
  | plain {c : Char} {colored bare : List Char} (hc : c ≠ escape)
      (h : Styled oneLine colored bare) : Styled oneLine (c :: colored) (c :: bare)
  | piece (style : Style) {inner colored bare : List Char} (hinner : escape ∉ inner)
      (hline : oneLine → '\n' ∉ inner) (h : Styled oneLine colored bare) :
      Styled oneLine
        (style.opening.toList ++ (inner ++ (Style.closing.toList ++ colored))) (inner ++ bare)

namespace Styled

variable {oneLine : Prop} {colored bare colored' bare' : List Char}

theorem append (h : Styled oneLine colored bare) (h' : Styled oneLine colored' bare') :
    Styled oneLine (colored ++ colored') (bare ++ bare') := by
  induction h with
  | nil => exact h'
  | plain hc _ ih => exact .plain hc ih
  | piece style hinner hline _ ih =>
    simp only [List.append_assoc]
    exact .piece style hinner hline ih

theorem of_notMem {text : List Char} (h : escape ∉ text) : Styled oneLine text text := by
  induction text with
  | nil => exact .nil
  | cons c text ih =>
    rw [List.mem_cons, not_or] at h
    exact .plain (Ne.symm h.1) (ih h.2)

/-- Without the escape sequences, only the text is left. -/
theorem deleteSequences_eq (h : Styled oneLine colored bare) : deleteSequences colored = bare := by
  induction h with
  | nil => rw [deleteSequences]
  | plain hc _ ih => rw [Style.deleteSequences_cons hc, ih]
  | piece style hinner _ _ ih =>
    rw [Style.deleteSequences_opening, Style.deleteSequences_append hinner,
      Style.deleteSequences_closing, ih]

/-- Where a text without escape characters goes on with something, an escape character is in what
comes behind. -/
theorem exists_of_append_eq {plain rest before after : List Char} (h : escape ∉ plain)
    (heq : plain ++ rest = before ++ escape :: after) :
    ∃ others, before = plain ++ others ∧ rest = others ++ escape :: after := by
  rcases List.append_eq_append_iff.mp heq with ⟨others, hbefore, hrest⟩ | ⟨others, hplain, hafter⟩
  · exact ⟨others, hbefore, hrest⟩
  · cases others with
    | nil => exact ⟨[], by rw [hplain, List.append_nil, List.append_nil], hafter.symm⟩
    | cons c others =>
      rw [List.cons_append, List.cons.injEq] at hafter
      rw [hplain, ← hafter.1] at h
      exact absurd (List.mem_append_right _ List.mem_cons_self) h

/-- Behind what begins a style there is a piece of text, and then what ends the style. -/
theorem exists_closing {style : Style} {before after : List Char}
    (h : Styled oneLine colored bare) (heq : colored = before ++ (style.opening.toList ++ after)) :
    ∃ inner rest, after = inner ++ (Style.closing.toList ++ rest) ∧ escape ∉ inner ∧
      (oneLine → '\n' ∉ inner) := by
  obtain ⟨tail, htail, -⟩ := Style.exists_opening style
  -- the sequence begins with an escape character: in `piece` it is the first one, or lies behind
  induction h generalizing before with
  | nil =>
    rw [htail] at heq
    simp at heq
  | plain hc _ ih =>
    cases before with
    | nil =>
      rw [htail] at heq
      exact absurd (List.cons.inj heq).1 hc
    | cons c before => exact ih (List.cons.inj heq).2
  | @piece found inner colored _ hinner hline _ ih =>
    cases before with
    | nil =>
      exact ⟨inner, colored, (Style.opening_inj heq).symm, hinner, hline⟩
    | cons c before =>
      obtain ⟨tail', htail', hplain⟩ := Style.exists_opening found
      rw [htail', htail, List.cons_append, List.cons_append, List.cons_append] at heq
      obtain ⟨others, -, heq⟩ := exists_of_append_eq hplain (List.cons.inj heq).2
      obtain ⟨others, -, heq⟩ := exists_of_append_eq hinner heq
      cases others with
      | nil =>
        -- the next escape character is that of the sequence which ends the piece
        rw [List.nil_append, ← List.cons_append, ← htail] at heq
        exact absurd heq (Style.closing_append_ne style _ _)
      | cons c others =>
        obtain ⟨others, -, heq⟩ := exists_of_append_eq (show escape ∉ ['[', '0', 'm'] by decide)
          (List.cons.inj heq).2
        rw [← List.cons_append, ← htail] at heq
        exact ih heq

end Styled

/-! ## What is shown -/

/-- No text of the diagnostic has an escape character in it. -/
structure Diagnostic.Unescaped (d : Diagnostic) : Prop where
  message : escape ∉ d.message.toList
  labels : ∀ l ∈ d.labels, escape ∉ l.message.toList
  notes : ∀ text ∈ d.notes, escape ∉ text.toList

/-- Neither the name of the file nor its text has an escape character in it. -/
structure SourceFile.Unescaped (file : SourceFile) : Prop where
  path : escape ∉ file.path.toList
  text : escape ∉ file.text

/-- The messages of the labels have no line feeds in them. -/
def Diagnostic.OneLine (d : Diagnostic) : Prop := ∀ l ∈ d.labels, '\n' ∉ l.message.toList

theorem LineTable.isInfix_lineText (table : LineTable) (text : List Char) (line : Nat) :
    table.lineText text line <:+: text := by
  rw [lineText]
  split
  · exact List.nil_infix
  · split
    · exact List.nil_infix
    · exact (List.rdropWhile_prefix isLineEnd _).isInfix.trans (isInfix_slice text _ _)

/-- Texts that are shown, in colour and without. -/
def StyledText (oneLine : Prop) (colored bare : String) : Prop :=
  Styled oneLine colored.toList bare.toList

namespace StyledText

variable {oneLine : Prop} {colored bare colored' bare' text : String}

theorem append (h : StyledText oneLine colored bare) (h' : StyledText oneLine colored' bare') :
    StyledText oneLine (colored ++ colored') (bare ++ bare') := by
  rw [StyledText, String.toList_append, String.toList_append]
  exact Styled.append h h'

theorem of_notMem (h : escape ∉ text.toList) : StyledText oneLine text text := Styled.of_notMem h

theorem join_map {α : Type} {f g : α → String} {xs : List α}
    (h : ∀ x ∈ xs, StyledText oneLine (f x) (g x)) :
    StyledText oneLine (String.join (xs.map f)) (String.join (xs.map g)) := by
  induction xs with
  | nil => exact .nil
  | cons x xs ih =>
    rw [List.map_cons, List.map_cons, String.join_cons, String.join_cons]
    exact (h x List.mem_cons_self).append (ih fun y hy => h y (List.mem_cons_of_mem x hy))

theorem number (n : Nat) : StyledText oneLine (toString n) (toString n) := by
  refine of_notMem fun hmem => ?_
  have hdigit := Nat.isDigit_of_mem_toDigits (by decide) (by decide) (Nat.toList_repr ▸ hmem)
  contradiction

theorem repeated {c : Char} (hc : c ≠ escape) (n : Nat) : StyledText oneLine
    (String.ofList (List.replicate n c)) (String.ofList (List.replicate n c)) := by
  refine of_notMem fun hmem => ?_
  rw [String.toList_ofList] at hmem
  exact hc (List.eq_of_mem_replicate hmem).symm

end StyledText

namespace Renderer

variable {oneLine : Prop} {source : Option SourceFile} {file : SourceFile} {d : Diagnostic}
  {l : Label}

theorem styledText_paint (style : Style) {text : String} (h : escape ∉ text.toList)
    (hline : oneLine → '\n' ∉ text.toList) :
    StyledText oneLine (paint ⟨true, source⟩ style text) (paint ⟨false, source⟩ style text) := by
  have hpiece : Styled oneLine _ _ := .piece style h hline .nil
  rw [List.append_nil, List.append_nil, ← String.toList_append, ← String.toList_append,
    ← String.append_assoc] at hpiece
  exact hpiece

theorem styledText_header (h : d.Unescaped) :
    StyledText oneLine (header ⟨true, source⟩ d) (header ⟨false, source⟩ d) := by
  have hcode : StyledText oneLine (paint ⟨true, source⟩ .bold ("[" ++ d.code.text ++ "]"))
      (paint ⟨false, source⟩ .bold ("[" ++ d.code.text ++ "]")) := by
    apply styledText_paint
    -- codes are an `E` and four digits
    · cases d.code <;> decide
    · intro
      cases d.code <;> decide
  have hword : StyledText oneLine (paint ⟨true, source⟩ .error "error")
      (paint ⟨false, source⟩ .error "error") :=
    styledText_paint _ (by decide) fun _ => by decide
  exact (((hword.append hcode).append (.of_notMem (by decide))).append
    (.of_notMem h.message)).append (.of_notMem (by decide))

theorem styledText_bareLabel (h : escape ∉ l.message.toList)
    (hline : oneLine → '\n' ∉ l.message.toList) :
    StyledText oneLine (bareLabel ⟨true, source⟩ l) (bareLabel ⟨false, source⟩ l) := by
  have hspan : StyledText oneLine (toString l.span) (toString l.span) :=
    ((StyledText.number _).append (.of_notMem (by decide))).append (.number _)
  exact ((((.of_notMem (by decide) : StyledText oneLine "  --> " "  --> ").append hspan).append
    (.of_notMem (by decide))).append (styledText_paint _ h hline)).append (.of_notMem (by decide))

theorem styledText_blanks (n : Nat) : StyledText oneLine (blanks n) (blanks n) :=
  .repeated (by decide) n

/-- The carets of a label are as wide in colour as without, and stand below the same characters. -/
theorem styledText_snippet (hfile : file.Unescaped) (width : Nat) (h : escape ∉ l.message.toList)
    (hline : oneLine → '\n' ∉ l.message.toList) : StyledText oneLine
      (snippet ⟨true, source⟩ file width l) (snippet ⟨false, source⟩ file width l) := by
  have htext : ∀ line, StyledText oneLine (String.ofList (file.lines.lineText file.text line))
      (String.ofList (file.lines.lineText file.text line)) := by
    intro line
    refine .of_notMem fun hmem => hfile.text ?_
    rw [String.toList_ofList] at hmem
    exact (file.lines.isInfix_lineText file.text line).subset hmem
  have hmarks : ∀ carets, StyledText oneLine
      (paint ⟨true, source⟩ .error (String.ofList (List.replicate carets '^') ++ " " ++ l.message))
      (paint ⟨false, source⟩ .error
        (String.ofList (List.replicate carets '^') ++ " " ++ l.message)) := by
    intro carets
    apply styledText_paint
    · simpa [escape] using h
    · intro hone
      simpa using hline hone
  refine .append (.append (.append (.append (.append (.append (.append (.append (.append
    (styledText_blanks _) (.number _)) ?_) (htext _)) ?_) (styledText_blanks _)) ?_)
      (styledText_blanks _)) (hmarks _)) ?_
  all_goals exact .of_notMem (by decide)

theorem styledText_snippets (hfile : file.Unescaped) (hd : d.Unescaped)
    (hline : oneLine → d.OneLine) :
    StyledText oneLine (snippets ⟨true, source⟩ file d) (snippets ⟨false, source⟩ file d) := by
  rw [snippets, snippets]
  cases d.primarySpan? with
  | none =>
    show StyledText oneLine "" ""
    exact .of_notMem (by decide)
  | some span =>
    have hplace : ∀ line column : Nat, StyledText oneLine s!":{line}:{column}\n"
        s!":{line}:{column}\n" := by
      intro line column
      refine .append (.append (.append (.append ?_ (.number _)) ?_) (.number _)) ?_
      all_goals exact .of_notMem (by decide)
    have hlabels : StyledText oneLine
        (String.join (d.labels.map (snippet ⟨true, source⟩ file (gutterWidth file d.labels))))
        (String.join (d.labels.map (snippet ⟨false, source⟩ file (gutterWidth file d.labels)))) :=
      .join_map fun l hl =>
        styledText_snippet hfile _ (hd.labels l hl) fun hone => hline hone l hl
    refine .append (.append (.append (.append (.append (.append (styledText_blanks _) ?_)
      (.of_notMem hfile.path)) (hplace _ _)) (styledText_blanks _)) ?_) hlabels
    all_goals exact .of_notMem (by decide)

theorem styledText_render (hsource : ∀ file, source = some file → file.Unescaped)
    (hd : d.Unescaped) (hline : oneLine → d.OneLine) :
    StyledText oneLine (render ⟨true, source⟩ d) (render ⟨false, source⟩ d) := by
  have hnotes : StyledText oneLine (String.join (d.notes.map note))
      (String.join (d.notes.map note)) := by
    refine .join_map fun text htext => ?_
    refine .append (.append ?_ (.of_notMem (hd.notes text htext))) ?_
    all_goals exact .of_notMem (by decide)
  have hlabels : StyledText oneLine (labels ⟨true, source⟩ d) (labels ⟨false, source⟩ d) := by
    cases source with
    | none =>
      exact .join_map fun l hl => styledText_bareLabel (hd.labels l hl) fun hone => hline hone l hl
    | some file => exact styledText_snippets (hsource file rfl) hd hline
  exact ((styledText_header hd).append hlabels).append hnotes

/-- What is shown in colour is what is shown without, with escape sequences around some pieces of
it. Every sequence that begins a style is followed by a piece without such sequences and then by the
one that ends all styles, on the same line if the messages of labels are on one line. -/
theorem colors_decorate {ds : List Diagnostic}
    (hsource : ∀ file, source = some file → file.Unescaped) (hds : ∀ d ∈ ds, d.Unescaped) :
    (deleteSequences (renderAll ⟨true, source⟩ ds).toList =
      (renderAll ⟨false, source⟩ ds).toList) ∧
    ∀ (style : Style) (before after : List Char),
      (renderAll ⟨true, source⟩ ds).toList = before ++ (style.opening.toList ++ after) →
      ∃ inner rest, after = inner ++ (Style.closing.toList ++ rest) ∧ escape ∉ inner ∧
        ((∀ d ∈ ds, d.OneLine) → '\n' ∉ inner) := by
  have hstyled : StyledText (∀ d ∈ ds, d.OneLine) (renderAll ⟨true, source⟩ ds)
      (renderAll ⟨false, source⟩ ds) := by
    rw [renderAll_eq, renderAll_eq]
    exact .join_map fun d hd => styledText_render hsource (hds d hd) fun hone => hone d hd
  exact ⟨hstyled.deleteSequences_eq, fun _ _ _ heq => hstyled.exists_closing heq⟩

/-- One label with a character of two bytes, and a note. -/
theorem colors_decorate_note : ∃ (source : Option SourceFile) (ds : List Diagnostic),
    (∀ file, source = some file → file.Unescaped) ∧ (∀ d ∈ ds, d.Unescaped) ∧
    renderAll ⟨true, source⟩ ds = "\x1b[1;31merror\x1b[0m\x1b[1m[E6001]\x1b[0m: m\n" ++
      " --> p:1:3\n  |\n1 | a é\n  |   \x1b[1;31m^ l\x1b[0m\n  = note: n\n" ∧
    deleteSequences (renderAll ⟨true, source⟩ ds).toList =
      (renderAll ⟨false, source⟩ ds).toList := by
  have hsource : ∀ file, some (SourceFile.ofString "p" "a é\n") = some file → file.Unescaped := by
    rintro file ⟨⟩
    exact ⟨by decide, by decide⟩
  have hds : ∀ d ∈ [(⟨.undefinedVariable, "m", [⟨⟨2, 4⟩, "l"⟩], ["n"]⟩ : Diagnostic)],
      d.Unescaped := by
    intro d hd
    rw [List.mem_singleton.mp hd]
    exact ⟨by decide, by decide, by decide⟩
  exact ⟨_, _, hsource, hds, by decide +kernel, (colors_decorate hsource hds).1⟩

end Renderer

end LambdaScript
