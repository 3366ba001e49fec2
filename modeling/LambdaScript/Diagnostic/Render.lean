import LambdaScript.Diagnostic
import LambdaScript.Source.LineTable
/-!
# Diagnostics as text

With a source at hand, a diagnostic shows every label below the line it is about:

    error[E6001]: undefined variable `y`
     --> main.lm:2:1
      |
    2 | y + x
      | ^ not defined

The line numbers of all labels share one column. Carets stand below the characters of the span as
far as they are on that line, and there is at least one. Without a source, spans are given as they
are. Colours are escape sequences around pieces of the same text.

An `Emitter` writes diagnostics one after the other.
-/

namespace LambdaScript

/-- When to use colours. -/
inductive ColorMode where
  /-- If the output is a terminal. -/
  | auto
  | always
  | never
deriving DecidableEq

namespace ColorMode

/-- Whether colours are used on an output that is a terminal or is none. -/
def usesColors (mode : ColorMode) (terminal : Bool) : Bool :=
  match mode with
  | auto => terminal
  | always => true
  | never => false

/-- The word for each mode. -/
def word : ColorMode → String
  | auto => "auto"
  | always => "always"
  | never => "never"

/-- The mode that a word stands for. -/
def ofWord? : String → Option ColorMode
  | "auto" => some auto
  | "always" => some always
  | "never" => some never
  | _ => none

end ColorMode

/-- Ways to set off a piece of text. -/
inductive Style where
  | error
  | bold
deriving DecidableEq

/-- The escape sequence that begins a style. -/
def Style.opening : Style → String
  | error => "\x1b[1;31m"
  | bold => "\x1b[1m"

/-- The escape sequence that ends every style. -/
def Style.closing : String := "\x1b[0m"

/-- A source text with its name and its lines. -/
structure SourceFile where
  path : String
  text : List Char
  lines : LineTable

/-- A source text under a name. -/
def SourceFile.ofString (path source : String) : SourceFile :=
  let text := source.toList
  ⟨path, text, .ofText text⟩

/-- How diagnostics are shown: in colour or not, and with which source. -/
structure Renderer where
  colors : Bool
  source : Option SourceFile

namespace Renderer

/-- A number of blanks. -/
def blanks (n : Nat) : String := String.ofList (List.replicate n ' ')

/-- A piece of text in a style, if colours are used. -/
def paint (r : Renderer) (style : Style) (text : String) : String :=
  if r.colors then style.opening ++ text ++ Style.closing else text

/-- The line that tells code and message. -/
def header (r : Renderer) (d : Diagnostic) : String :=
  r.paint .error "error" ++ r.paint .bold ("[" ++ d.code.text ++ "]") ++ ": " ++ d.message ++ "\n"

/-- A label by its span. -/
def bareLabel (r : Renderer) (label : Label) : String :=
  "  --> " ++ toString label.span ++ ": " ++ r.paint .error label.message ++ "\n"

/-- The width of the longest line number that the labels' lines have. -/
def gutterWidth (file : SourceFile) (labels : List Label) : Nat :=
  (labels.map fun l => (toString (file.lines.lineOf l.span.start)).length).max?.getD 1

/-- How many carets mark a label on a line of `available` characters from its start on. -/
def caretCount (file : SourceFile) (span : Span) (available : Nat) : Nat :=
  max 1 (min (slice file.text span.start span.stop).length available)

/-- A label below the line it is about. -/
def snippet (r : Renderer) (file : SourceFile) (gutter : Nat) (label : Label) : String :=
  let (line, column) := file.lines.position file.text label.span.start
  let text := file.lines.lineText file.text line
  let number := toString line
  let carets := caretCount file label.span (text.length - (column - 1))
  blanks (gutter - number.length) ++ number ++ " | " ++ String.ofList text ++ "\n" ++
    blanks gutter ++ " | " ++ blanks (column - 1) ++
    r.paint .error (String.ofList (List.replicate carets '^') ++ " " ++ label.message) ++ "\n"

/-- All labels below their lines, behind the place of the first one. -/
def snippets (r : Renderer) (file : SourceFile) (d : Diagnostic) : String :=
  match d.primarySpan? with
  | none => ""
  | some span =>
    let gutter := gutterWidth file d.labels
    let (line, column) := file.lines.position file.text span.start
    blanks gutter ++ "--> " ++ file.path ++ s!":{line}:{column}\n" ++ blanks gutter ++ " |\n" ++
      String.join (d.labels.map (r.snippet file gutter))

/-- The labels of a diagnostic. -/
def labels (r : Renderer) (d : Diagnostic) : String :=
  match r.source with
  | some file => r.snippets file d
  | none => String.join (d.labels.map r.bareLabel)

/-- A note on a line of its own. -/
def note (text : String) : String := "  = note: " ++ text ++ "\n"

/-- A diagnostic as text. -/
def render (r : Renderer) (d : Diagnostic) : String :=
  r.header d ++ r.labels d ++ String.join (d.notes.map note)

end Renderer

/-! ## One after the other -/

/-- Where diagnostics are written: everything that was written so far, and how the next one is
shown. -/
structure Emitter where
  written : String
  renderer : Renderer

namespace Emitter

/-- Nothing is written yet. -/
def fresh (r : Renderer) : Emitter := ⟨"", r⟩

/-- Write a piece of text. -/
def write (e : Emitter) (text : String) : Emitter := { e with written := e.written ++ text }

/-- Write the notes of a diagnostic. -/
def writeNotes (e : Emitter) (notes : List String) : Emitter :=
  notes.foldl (fun e text => e.write (Renderer.note text)) e

/-- Write a diagnostic. The source is taken out while labels are written below its lines, and is put
back behind them. -/
def emit (e : Emitter) (d : Diagnostic) : Emitter :=
  let e := e.write (e.renderer.header d)
  let e :=
    match e.renderer.source with
    | some file =>
      let bare : Renderer := { e.renderer with source := none }
      let e := { e with renderer := bare }.write (bare.snippets file d)
      { e with renderer := { e.renderer with source := some file } }
    | none => e.write (String.join (d.labels.map e.renderer.bareLabel))
  e.writeNotes d.notes

theorem writeNotes_eq (e : Emitter) (notes : List String) :
    e.writeNotes notes = e.write (String.join (notes.map Renderer.note)) := by
  induction notes generalizing e with
  | nil =>
    show e = e.write ""
    rw [write, String.append_empty]
  | cons text notes ih =>
    show (e.write (Renderer.note text)).writeNotes notes = _
    rw [ih, List.map_cons, String.join_cons]
    simp only [write, String.append_assoc]

/-- Taking the source out makes no difference to what is written, and none to what comes next. -/
theorem emit_eq (e : Emitter) (d : Diagnostic) : e.emit d = e.write (e.renderer.render d) := by
  obtain ⟨written, colors, source⟩ := e
  rw [emit, writeNotes_eq, Renderer.render, Renderer.labels]
  cases source with
  | none =>
    simp only [write, String.append_assoc]
  | some file =>
    -- snippets are given their file, and do not ask the renderer for it
    simp only [write, String.append_assoc]
    rfl

end Emitter

/-- Diagnostics as text, one after the other. -/
def Renderer.renderAll (r : Renderer) (ds : List Diagnostic) : String :=
  (ds.foldl Emitter.emit (Emitter.fresh r)).written

theorem Emitter.foldl_emit (e : Emitter) (ds : List Diagnostic) :
    ds.foldl Emitter.emit e = e.write (String.join (ds.map e.renderer.render)) := by
  induction ds generalizing e with
  | nil =>
    show e = e.write ""
    rw [write, String.append_empty]
  | cons d ds ih =>
    rw [List.foldl_cons, emit_eq, ih, List.map_cons, String.join_cons]
    simp only [write, String.append_assoc]

/-- What is written is what each diagnostic gives. -/
theorem Renderer.renderAll_eq (r : Renderer) (ds : List Diagnostic) :
    r.renderAll ds = String.join (ds.map r.render) := by
  rw [renderAll, Emitter.foldl_emit]
  exact String.empty_append

end LambdaScript
