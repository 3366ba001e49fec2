import Mathlib.Order.Bounds.Basic
import LambdaScript.Proofs.Lines
/-!
# Labels below their lines

With a source at hand, a diagnostic is shown as rows with a bar in each of them: one row for the
line of a label and one for the carets below it. `Renderer.Excerpt` says how these rows look, by
what the source is in front of a label and behind it: where the bars stand, which numbers are in
front of them, and which characters the carets point at. Every diagnostic with labels is shown in
this way, and diagnostics that are shown one after the other do not disturb each other
(`Renderer.excerpt_renderAll`).

Only places in reach are spoken of: a source may be so long that offsets are clamped, and what lies
behind the largest offset cannot be pointed at.
-/

namespace LambdaScript

/-- A row of a snippet: what stands in front of its bar, and what stands behind it. -/
structure Row where
  gutter : String
  content : String

/-- The row as it is written. -/
def Row.text (row : Row) : String := row.gutter ++ " |" ++ row.content ++ "\n"

/-- The line on which a place between two parts of a text is, as it is shown: up to the next line
feed, without carriage returns at the end. -/
def shownLine (before after : List Char) : List Char :=
  (lastLine before ++ after.takeWhile (· != '\n')).rdropWhile (· == '\r')

/-- What is shown in front of a place is in front of it in the text, and likewise behind it. -/
theorem exists_behind_of_shownLine {before after : List Char}
    (h : (lastLine before).length ≤ (shownLine before after).length) :
    ∃ behind, shownLine before after = lastLine before ++ behind ∧ behind <+: after := by
  have hshown : shownLine before after <+: lastLine before ++ after :=
    (List.rdropWhile_prefix _ _).trans
      ((List.prefix_append_right_inj _).mpr (List.takeWhile_prefix _))
  obtain ⟨behind, hbehind⟩ :=
    List.prefix_of_prefix_length_le (List.prefix_append (lastLine before) after) hshown h
  rw [← hbehind] at hshown
  exact ⟨behind, hbehind.symm, (List.prefix_append_right_inj _).mp hshown⟩

namespace Renderer

/-- What the two rows of a label show whose start is in reach: the number of its line in front of
the first, and carets in the second. -/
structure Marks (text : List Char) (l : Label) (number : Nat) (line carets : Row) : Prop where
  number_eq : number = lineAt text l.span.start
  /-- A span from one place to another, the first of them on the part of its line that is shown:
  the carets begin below the character that the span begins with, and there are as many as the span
  has characters on that part, but at least one. -/
  below (before marked after : List Char) : text = before ++ (marked ++ after) →
    l.span = ⟨byteCount before, byteCount before + byteCount marked⟩ →
    byteCount (before ++ (marked ++ after).takeWhile (· != '\n')) < maxOffset →
    (lastLine before).length ≤ (shownLine before (marked ++ after)).length →
    ∃ behind, shownLine before (marked ++ after) = lastLine before ++ behind ∧
      behind <+: marked ++ after ∧
      line.content = " " ++ String.ofList (lastLine before) ++ String.ofList behind ∧
      carets.content = " " ++ blanks (lastLine before).length ++
        String.ofList (List.replicate (max 1 (min marked.length behind.length)) '^') ++
          " " ++ l.message

/-- How a diagnostic is shown whose labels begin with `first`: behind its headline there is the
place of this label, then an empty row, and then two rows for each label. -/
structure Excerpt (path : String) (text : List Char) (d : Diagnostic) (first : Label)
    (shown : String) (width line column : Nat) (number : Label → Nat)
    (lineRow caretRow : Label → Row) : Prop where
  shown_eq : shown = d.headline ++ "\n" ++ placeLine path line column width ++
    (Row.mk (blanks width) "").text ++
      String.join (d.labels.map fun l => (lineRow l).text ++ (caretRow l).text) ++
        String.join (d.notes.map note)
  line_eq : line = number first
  /-- Columns count characters from the last line feed on; what begins behind the end is told to be
  at the end. -/
  column_eq (before after : List Char) : text = before ++ after →
    min first.span.start (byteCount text) = byteCount before → byteCount before < maxOffset →
    column = (lastLine before).length + 1
  /-- The bars leave room for the longest number. -/
  width_eq : IsGreatest {n | ∃ l ∈ d.labels, n = (toString (number l)).length} width
  gutters (l : Label) :
    (lineRow l).gutter = blanks (width - (toString (number l)).length) ++ toString (number l) ∧
      (caretRow l).gutter = blanks width
  bars (l : Label) : l ∈ d.labels →
    (lineRow l).gutter.length = width ∧ (caretRow l).gutter.length = width
  marks (l : Label) : min l.span.start (byteCount text) < maxOffset →
    Marks text l (number l) (lineRow l) (caretRow l)

/-! ## Rows -/

/-- The row of the line that a label is on. -/
def lineRow (file : SourceFile) (width : Nat) (l : Label) : Row :=
  let line := (file.lines.position file.text l.span.start).1
  ⟨blanks (width - (toString line).length) ++ toString line,
    " " ++ String.ofList (file.lines.lineText file.text line)⟩

/-- The row of the carets of a label. -/
def caretRow (file : SourceFile) (width : Nat) (l : Label) : Row :=
  let (line, column) := file.lines.position file.text l.span.start
  let text := file.lines.lineText file.text line
  ⟨blanks width, " " ++ blanks (column - 1) ++
    String.ofList (List.replicate (caretCount file l.span (text.length - (column - 1))) '^') ++
      " " ++ l.message⟩

theorem length_blanks (n : Nat) : (blanks n).length = n := by
  rw [blanks, String.length_ofList, List.length_replicate]

theorem snippet_eq (source : Option SourceFile) (file : SourceFile) (width : Nat) :
    snippet ⟨false, source⟩ file width =
      fun l => (lineRow file width l).text ++ (caretRow file width l).text := by
  have hbar : " | " = " |" ++ " " := rfl
  funext l
  rw [snippet, Row.text, Row.text, hbar]
  simp only [lineRow, caretRow, paint, String.append_assoc, Bool.false_eq_true, if_false]

theorem header_eq (source : Option SourceFile) (d : Diagnostic) :
    header ⟨false, source⟩ d = d.headline ++ "\n" := by
  rw [header, Diagnostic.headline]
  have hword : "error[" = "error" ++ "[" := rfl
  have hbehind : "]: " = "]" ++ ": " := rfl
  rw [hword, hbehind]
  simp only [paint, String.append_assoc, Bool.false_eq_true, if_false]

/-- The rows of a diagnostic with labels, as they are written. -/
theorem render_eq_rows {path source : String} {d : Diagnostic} {first : Label}
    {others : List Label} (hlabels : d.labels = first :: others) :
    render ⟨false, some (.ofString path source)⟩ d =
      d.headline ++ "\n" ++
        placeLine path
          ((LineTable.ofText source.toList).position source.toList first.span.start).1
          ((LineTable.ofText source.toList).position source.toList first.span.start).2
          (gutterWidth (.ofString path source) d.labels) ++
        (Row.mk (blanks (gutterWidth (.ofString path source) d.labels)) "").text ++
        String.join (d.labels.map fun l =>
          (lineRow (.ofString path source) (gutterWidth (.ofString path source) d.labels) l).text ++
          (caretRow (.ofString path source)
            (gutterWidth (.ofString path source) d.labels) l).text) ++
        String.join (d.notes.map note) := by
  have hspan : d.primarySpan? = some first.span := by
    rw [Diagnostic.primarySpan?, hlabels]
    rfl
  have hempty : " |\n" = " |" ++ ("" ++ "\n") := rfl
  show header _ d ++ snippets _ (.ofString path source) d ++ _ = _
  rw [header_eq, snippets, hspan]
  simp only [snippet_eq, placeLine, Row.text, SourceFile.ofString, String.append_assoc, hempty]

/-! ## What the rows show -/

variable {path source : String} {l : Label}

/-- The room in front of the bars is that of the longest line number. -/
theorem isGreatest_gutterWidth (file : SourceFile) {labels : List Label} (hne : labels ≠ []) :
    IsGreatest {n | ∃ l ∈ labels, n = (toString (file.lines.lineOf l.span.start)).length}
      (gutterWidth file labels) := by
  obtain ⟨width, hwidth⟩ : ∃ width, (labels.map fun l =>
      (toString (file.lines.lineOf l.span.start)).length).max? = some width := by
    rw [← Option.ne_none_iff_exists', ne_eq, List.max?_eq_none_iff, List.map_eq_nil_iff]
    exact hne
  obtain ⟨hmem, hle⟩ := List.max?_eq_some_iff.mp hwidth
  rw [gutterWidth, hwidth, Option.getD_some]
  constructor
  · obtain ⟨l, hl, hlength⟩ := List.mem_map.mp hmem
    exact ⟨l, hl, hlength.symm⟩
  · rintro n ⟨l, hl, rfl⟩
    exact hle _ (List.mem_map.mpr ⟨l, hl, rfl⟩)

theorem position_first {before after : List Char} (htext : source.toList = before ++ after)
    (hstart : min l.span.start (byteCount source.toList) = byteCount before)
    (hreach : byteCount before < maxOffset) :
    (LineTable.ofText source.toList).position source.toList l.span.start =
      (1 + before.count '\n', (lastLine before).length + 1) := by
  have hplace := LineTable.position_append after hreach
  rw [← htext] at hplace
  by_cases h : l.span.start ≤ byteCount source.toList
  · rwa [← hstart, Nat.min_eq_left h] at hplace
  · -- behind the end of a text whose offsets are not clamped
    rw [Nat.min_eq_right (by omega)] at hstart
    rw [LineTable.position_of_le (by omega) (by omega), hstart, hplace]

theorem lineRow_gutter (width : Nat) :
    (lineRow (.ofString path source) width l).gutter =
      blanks (width - (toString ((LineTable.ofText source.toList).lineOf l.span.start)).length) ++
        toString ((LineTable.ofText source.toList).lineOf l.span.start) := by
  rw [← LineTable.position_fst]
  rfl

theorem marks_rows {width : Nat}
    (hreach : min l.span.start (byteCount source.toList) < maxOffset) :
    Marks source.toList l ((LineTable.ofText source.toList).lineOf l.span.start)
      (lineRow (.ofString path source) width l) (caretRow (.ofString path source) width l) where
  number_eq := LineTable.lineOf_eq_lineAt hreach
  below before marked after htext hspan hend hwithin := by
    have hplace : (LineTable.ofText source.toList).position source.toList l.span.start =
        (1 + before.count '\n', (lastLine before).length + 1) := by
      have hstart : l.span.start = byteCount before := by rw [hspan]
      have hle : byteCount before ≤ byteCount source.toList := by
        rw [htext, byteCount_append]
        exact Nat.le_add_right _ _
      exact position_first htext (by rw [hstart, Nat.min_eq_left hle]) (by omega)
    have hline : (LineTable.ofText source.toList).lineText source.toList (1 + before.count '\n') =
        shownLine before (marked ++ after) := by
      rw [htext]
      exact LineTable.lineText_around before (marked ++ after) hend
    have hmarked : slice source.toList l.span.start l.span.stop = marked := by
      rw [hspan, htext, slice, slice?_append, Option.getD_some]
    obtain ⟨behind, hshown, hbehind⟩ := exists_behind_of_shownLine hwithin
    -- the carets have the room that is left of the line
    have hroom : (shownLine before (marked ++ after)).length - (lastLine before).length =
        behind.length := by
      rw [hshown, List.length_append]
      omega
    refine ⟨behind, hshown, hbehind, ?_, ?_⟩
    · simp only [lineRow, SourceFile.ofString, hplace, hline, hshown, String.ofList_append,
        String.append_assoc]
    · simp only [caretRow, SourceFile.ofString, hplace, hline, caretCount, hmarked,
        Nat.add_sub_cancel, hroom]

theorem excerpt_render {d : Diagnostic} {first : Label} {others : List Label}
    (hlabels : d.labels = first :: others) :
    ∃ width line column number lineRow caretRow, Excerpt path source.toList d first
      (render ⟨false, some (.ofString path source)⟩ d)
      width line column number lineRow caretRow := by
  have hne : d.labels ≠ [] := by
    rw [hlabels]
    exact List.cons_ne_nil _ _
  have hwidth := isGreatest_gutterWidth (.ofString path source) hne
  refine ⟨_, _, _, _, _, _, render_eq_rows hlabels, ?_, ?_, hwidth, ?_, ?_, ?_⟩
  · exact LineTable.position_fst _ _
  · intro before after htext hstart hreach
    rw [position_first htext hstart hreach]
  · exact fun l => ⟨lineRow_gutter _, rfl⟩
  · intro l hl
    have hnumber := hwidth.2 ⟨l, hl, rfl⟩
    constructor
    · rw [lineRow_gutter, String.length_append, length_blanks]
      exact Nat.sub_add_cancel hnumber
    · exact length_blanks _
  · exact fun l hreach => marks_rows hreach

/-- Through one emitter every diagnostic is shown as it is shown alone. With labels, it is shown
with its place, the lines that the labels are on, and carets below them, and all bars are in
line. -/
theorem excerpt_renderAll (path source : String) :
    (∀ ds, renderAll ⟨false, some (.ofString path source)⟩ ds =
      String.join (ds.map fun d => renderAll ⟨false, some (.ofString path source)⟩ [d])) ∧
    ∀ (d : Diagnostic) (first : Label) (others : List Label), d.labels = first :: others →
      ∃ width line column number lineRow caretRow, Excerpt path source.toList d first
        (renderAll ⟨false, some (.ofString path source)⟩ [d])
        width line column number lineRow caretRow := by
  have halone : ∀ d, renderAll ⟨false, some (.ofString path source)⟩ [d] =
      render ⟨false, some (.ofString path source)⟩ d := by
    intro d
    rw [renderAll_eq, List.map_singleton, String.join_cons, String.join_nil, String.append_empty]
  constructor
  · intro ds
    rw [renderAll_eq]
    simp only [halone]
  · intro d first others hlabels
    rw [halone]
    exact excerpt_render hlabels

/-- Two labels whose lines have numbers of different widths. The second has characters of two bytes
and goes on behind what is shown of its line. -/
theorem excerpt_twoLabels : ∃ d : Diagnostic, d.labels = [⟨⟨1, 2⟩, "one"⟩, ⟨⟨14, 20⟩, "two"⟩] ∧
    renderAll ⟨false, some (.ofString "p" "\nab\n\n\n\n\n\n\n\né éé\r\n")⟩ [d] =
      "error[E6001]: m\n  --> p:2:1\n   |\n 2 | ab\n   | ^ one\n10 | é éé\n   |   ^^ two\n" ∧
    ∃ width line column number lineRow caretRow,
      Excerpt "p" "\nab\n\n\n\n\n\n\n\né éé\r\n".toList d ⟨⟨1, 2⟩, "one"⟩
        (renderAll ⟨false, some (.ofString "p" "\nab\n\n\n\n\n\n\n\né éé\r\n")⟩ [d])
        width line column number lineRow caretRow :=
  ⟨⟨.undefinedVariable, "m", _, []⟩, rfl, by decide +kernel, (excerpt_renderAll _ _).2 _ _ _ rfl⟩

end Renderer

end LambdaScript
