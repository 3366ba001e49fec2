import LambdaScript.Diagnostic.Render
import LambdaScript.Diagnostic.Report
import LambdaScript.Proofs.Laziness
import LambdaScript.Proofs.Modes
import LambdaScript.Proofs.Partition
/-!
# Two ways to find a line and a column

A character stream counts lines and columns while it reads. A line table finds them from an offset:
it notes where the lines start, searches among these, and counts characters from there on. Both come
to the same place (`positions_agree`), so that a lexical error tells the same character in its
message and in the line above the source text that is shown with it.

Both are compared with the text in front of the place: its line feeds and the characters behind the
last of them.
-/

namespace LambdaScript

/-! ## Searching by halves -/

/-- If exactly the first `count` entries are at most `offset`, that is how many are counted. -/
theorem LineTable.countUpTo_eq {starts : Array Nat} {offset count low high : Nat}
    (hcount : ∀ (i : Nat) (hi : i < starts.size), starts[i] ≤ offset ↔ i < count)
    (hlow : low ≤ count) (hhigh : count ≤ high) (hsize : high ≤ starts.size) :
    countUpTo starts offset low high hsize = count := by
  -- the bounds keep `count` between them while they approach each other
  fun_induction countUpTo starts offset low high hsize with
  | case1 low high hsize hlt hmiddle hle ih =>
    have hbelow := (hcount _ hmiddle).mp hle
    exact ih hbelow hhigh
  | case2 low high hsize hlt hmiddle hle ih =>
    have hnot := mt (hcount _ hmiddle).mpr hle
    exact ih hlow (Nat.le_of_not_lt hnot)
  | case3 low high hsize hlt => omega

/-! ## Line starts -/

theorem lineStarts_append (offset : Nat) (xs ys : List Char) :
    lineStarts offset (xs ++ ys) =
      lineStarts offset xs ++ lineStarts (offset + byteCount xs) ys := by
  induction xs generalizing offset with
  | nil => rfl
  | cons c xs ih =>
    have hbytes : offset + byteCount (c :: xs) = offset + c.utf8Size + byteCount xs :=
      (Nat.add_assoc ..).symm
    rw [List.cons_append, lineStarts, lineStarts, ih, hbytes]
    split <;> rfl

/-- There is one start behind every line feed. -/
theorem length_lineStarts (offset : Nat) (text : List Char) :
    (lineStarts offset text).length = text.count '\n' := by
  induction text generalizing offset with
  | nil => rfl
  | cons c text ih =>
    rw [lineStarts]
    split
    · next hc => rw [List.length_cons, ih, hc, List.count_cons_self]
    · next hc => rw [ih, List.count_cons_of_ne hc]

/-- Lines start inside the text or behind it. -/
theorem bounds_of_mem_lineStarts {offset start : Nat} {text : List Char}
    (hsize : offset + byteCount text ≤ maxOffset) (h : start ∈ lineStarts offset text) :
    offset < start ∧ start ≤ offset + byteCount text := by
  induction text generalizing offset with
  | nil => contradiction
  | cons c text ih =>
    have hpos := c.utf8Size_pos
    rw [byteCount] at hsize ⊢
    have htail : start ∈ lineStarts (offset + c.utf8Size) text →
        offset < start ∧ start ≤ offset + (c.utf8Size + byteCount text) := by
      intro hmem
      have hbounds := ih (by omega) hmem
      omega
    rw [lineStarts] at h
    split at h
    · rw [clampOffset_of_le (by omega)] at h
      rcases List.mem_cons.mp h with rfl | hmem
      · omega
      · exact htail hmem
    · exact htail h

/-- The last line of a text starts behind all the others. -/
theorem exists_lines {text : List Char} (hsize : byteCount text ≤ maxOffset) :
    ∃ lines, text = lines ++ lastLine text ∧
      (0 :: lineStarts 0 text).getLast? = some (byteCount lines) := by
  induction text using List.reverseRecOn with
  | nil => exact ⟨[], rfl, rfl⟩
  | append_singleton text c ih =>
    rw [byteCount_append] at hsize
    obtain ⟨lines, hlines, hlast⟩ := ih (by omega)
    by_cases hc : c = '\n'
    · subst hc
      have hstart : lineStarts (0 + byteCount text) ['\n'] = [byteCount (text ++ ['\n'])] := by
        rw [Nat.zero_add, byteCount_append]
        show [clampOffset (byteCount text + byteCount ['\n'])] = _
        rw [clampOffset_of_le hsize]
      refine ⟨text ++ ['\n'], by rw [lastLine_concat, if_pos rfl, List.append_nil], ?_⟩
      rw [lineStarts_append, hstart, ← List.cons_append, List.getLast?_append]
      rfl
    · have hnone : lineStarts (0 + byteCount text) [c] = [] := by simp [lineStarts, hc]
      refine ⟨lines, ?_, by rw [lineStarts_append, hnone, List.append_nil, hlast]⟩
      rw [lastLine_concat, if_neg hc, ← List.append_assoc, ← hlines]

namespace LineTable

variable {before after : List Char}

/-- The starts in a table are those at most as far as `before` goes, and then the others. -/
theorem ofText_append (before after : List Char) : ofText (before ++ after) =
    ⟨((0 :: lineStarts 0 before) ++ lineStarts (byteCount before) after).toArray⟩ := by
  rw [ofText, lineStarts_append, Nat.zero_add, List.cons_append]

/-- The line of a place is told by the line feeds in front of it. -/
theorem lineOf_byteCount (hsize : byteCount (before ++ after) ≤ maxOffset) :
    (ofText (before ++ after)).lineOf (byteCount before) = 1 + before.count '\n' := by
  rw [byteCount_append] at hsize
  have hlength : (0 :: lineStarts 0 before).length = 1 + before.count '\n' := by
    rw [List.length_cons, length_lineStarts, Nat.add_comm]
  have hfirst : ∀ start ∈ 0 :: lineStarts 0 before, start ≤ byteCount before := by
    intro start hstart
    rcases List.mem_cons.mp hstart with rfl | hmem
    · exact Nat.zero_le _
    · have hfits : 0 + byteCount before ≤ maxOffset := by omega
      have hbounds := bounds_of_mem_lineStarts hfits hmem
      omega
  have hlater : ∀ start ∈ lineStarts (byteCount before) after, byteCount before < start :=
    fun start hmem => (bounds_of_mem_lineStarts hsize hmem).1
  rw [lineOf, ofText_append, countUpTo_eq _ (Nat.zero_le (1 + before.count '\n'))]
  · exact Nat.max_eq_right (Nat.le_add_right 1 _)
  · rw [List.size_toArray, List.length_append, hlength]
    exact Nat.le_add_right _ _
  · intro i hi
    simp only [List.getElem_toArray, List.getElem_append]
    rw [← hlength]
    split
    · next hlt => exact ⟨fun _ => hlt, fun _ => hfirst _ (List.getElem_mem hlt)⟩
    · next hge =>
      have hnot : ∀ start ∈ lineStarts (byteCount before) after, ¬start ≤ byteCount before :=
        fun start hmem => Nat.not_le_of_lt (hlater start hmem)
      exact iff_of_false (hnot _ (List.getElem_mem _)) hge

/-- Where the line behind a text is found, its column is found too. -/
theorem position_of_lineOf (hsize : byteCount before ≤ maxOffset)
    (hline : (ofText (before ++ after)).lineOf (byteCount before) = 1 + before.count '\n') :
    (ofText (before ++ after)).position (before ++ after) (byteCount before) =
      (1 + before.count '\n', (lastLine before).length + 1) := by
  have hclamp : byteCount before ≤ clampOffset (byteCount (before ++ after)) := by
    rw [byteCount_append, clampOffset]
    omega
  obtain ⟨lines, hlines, hlast⟩ := exists_lines hsize
  have hstart : (ofText (before ++ after)).lineStart (1 + before.count '\n') = byteCount lines := by
    have hindex : 1 + before.count '\n' - 1 = (0 :: lineStarts 0 before).length - 1 := by
      rw [List.length_cons, length_lineStarts]
      omega
    rw [lineStart, ofText_append, hindex, Array.getD_eq_getD_getElem?, List.getElem?_toArray,
      List.getElem?_append_left (by simp), ← List.getLast?_eq_getElem?, hlast]
    rfl
  have hslice : slice (before ++ after) (byteCount lines) (byteCount before) =
      lastLine before := by
    have hcut := slice?_append lines (lastLine before) after
    rw [← byteCount_append, ← hlines, ← List.append_assoc, ← hlines] at hcut
    rw [slice, hcut, Option.getD_some]
  rw [position, Nat.min_eq_left hclamp]
  simp only [hline, hstart, hslice]

/-- The line table finds the place behind a text. -/
theorem position_byteCount (hsize : byteCount (before ++ after) ≤ maxOffset) :
    (ofText (before ++ after)).position (before ++ after) (byteCount before) =
      (1 + before.count '\n', (lastLine before).length + 1) := by
  have hbytes : byteCount before ≤ byteCount (before ++ after) := by
    rw [byteCount_append]
    exact Nat.le_add_right _ _
  exact position_of_lineOf (Nat.le_trans hbytes hsize) (lineOf_byteCount hsize)

end LineTable

/-! ## Character streams -/

namespace CharStream

/-- What can be asked of a character stream. -/
inductive Request where
  | peek
  | next
  | eatWhile (p : Char → Bool)
  | skipLine

/-- The stream behind an answer. -/
def behind (s : CharStream) : Request → CharStream
  | .peek => s
  | .next => s.next.2
  | .eatWhile p => (s.eatWhile p).2
  | .skipLine => s.skipLine

/-- The stream behind the answers to some requests. -/
def behindAll (s : CharStream) (requests : List Request) : CharStream := requests.foldl behind s

/-- The stream stands behind a part of `text`, and knows its place. -/
def StandsIn (text : List Char) (s : CharStream) : Prop :=
  ∃ before, text = before ++ s.rest ∧ s.position = Position.start.afterAll before

/-- The second stream stands behind these characters of the first one. -/
structure Takes (s : CharStream) (taken : List Char) (s' : CharStream) : Prop where
  rest : s.rest = taken ++ s'.rest
  position : s'.position = s.position.afterAll taken

theorem Takes.nothing (s : CharStream) : s.Takes [] s := ⟨rfl, rfl⟩

theorem Takes.trans {s s' s'' : CharStream} {xs ys : List Char} (h : s.Takes xs s')
    (h' : s'.Takes ys s'') : s.Takes (xs ++ ys) s'' := by
  constructor
  · rw [h.rest, h'.rest, List.append_assoc]
  · rw [h'.position, h.position, Position.afterAll_append]

theorem StandsIn.takes {text taken : List Char} {s s' : CharStream} (hs : StandsIn text s)
    (h : s.Takes taken s') : StandsIn text s' := by
  obtain ⟨before, htext, hposition⟩ := hs
  refine ⟨before ++ taken, by rw [htext, h.rest, List.append_assoc], ?_⟩
  rw [h.position, hposition, Position.afterAll_append]

theorem takes_next (s : CharStream) : s.Takes s.next.1.toList s.next.2 := by
  obtain ⟨_ | ⟨c, rest⟩, p⟩ := s
  · exact ⟨rfl, rfl⟩
  · exact ⟨rfl, rfl⟩

theorem takes_eatWhile (s : CharStream) (p : Char → Bool) :
    s.Takes (s.eatWhile p).1 (s.eatWhile p).2 :=
  ⟨List.takeWhile_append_dropWhile.symm, rfl⟩

/-- To skip a line is to take everything up to a line feed, and this as well. -/
theorem skipLine_eq_next (s : CharStream) : s.skipLine = (s.eatWhile (· != '\n')).2.next.2 := by
  have hline : '\n' ∉ s.rest.takeWhile (· != '\n') := by
    intro hmem
    have hne := List.all_eq_true.mp List.all_takeWhile _ hmem
    exact absurd rfl (bne_iff_ne.mp hne)
  have hposition := Position.afterAll_of_not_mem s.position hline
  have hfeed := List.head?_dropWhile_not (· != '\n') s.rest
  have hsize : Char.utf8Size '\n' = 1 := by decide
  rw [skipLine, eatWhile, hposition]
  cases hrest : s.rest.dropWhile (· != '\n') with
  | nil => rfl
  | cons c rest =>
    rw [hrest] at hfeed
    have hc : c = '\n' := by simpa using hfeed
    subst hc
    simp [next, Position.after, hsize]

/-- The characters up to and including the next line feed, or up to the end of the source. -/
def line (s : CharStream) : List Char :=
  s.rest.takeWhile (· != '\n') ++ (s.rest.dropWhile (· != '\n')).take 1

theorem takes_skipLine (s : CharStream) : s.Takes s.line s.skipLine := by
  have hlast : ((s.eatWhile (· != '\n')).2.next.1).toList =
      (s.rest.dropWhile (· != '\n')).take 1 := by
    simp only [eatWhile, next]
    cases s.rest.dropWhile (· != '\n') with
    | nil => rfl
    | cons c rest => rfl
  rw [skipLine_eq_next, line, ← hlast]
  exact (s.takes_eatWhile _).trans (takes_next _)

/-- The characters that a request takes. -/
def taken (s : CharStream) : Request → List Char
  | .peek => []
  | .next => s.next.1.toList
  | .eatWhile p => (s.eatWhile p).1
  | .skipLine => s.line

/-- Every request is answered by taking characters. -/
theorem takes_behind (s : CharStream) (r : Request) : s.Takes (s.taken r) (s.behind r) := by
  cases r with
  | peek => exact .nothing s
  | next => exact s.takes_next
  | eatWhile p => exact s.takes_eatWhile p
  | skipLine => exact s.takes_skipLine

theorem standsIn_behindAll (source : String) (requests : List Request) :
    StandsIn source.toList ((ofString source).behindAll requests) := by
  induction requests using List.reverseRecOn with
  | nil => exact ⟨[], rfl, rfl⟩
  | append_singleton requests r ih =>
    rw [behindAll, List.foldl_append]
    exact ih.takes (takes_behind _ r)

/-- The line table comes to the place that the stream has counted. -/
theorem StandsIn.position_eq {text : List Char} {s : CharStream} (h : StandsIn text s)
    (hsize : byteCount text ≤ maxOffset) :
    (LineTable.ofText text).position text s.offset = (s.position.line, s.position.column + 1) := by
  obtain ⟨before, rfl, hposition⟩ := h
  have hbytes : byteCount before ≤ maxOffset := by
    rw [byteCount_append] at hsize
    omega
  rw [offset, hposition, Position.afterAll_start]
  simp only [clampOffset_of_le hbytes]
  exact LineTable.position_byteCount hsize

end CharStream

/-! ## Lexical errors -/

/-- A lexical error is met: where all tokens are asked for, or those behind some characters, where
the source is read as a program, or where it is run. -/
inductive TellsLexError (source : String) (names : Interner) (e : LexError) : Prop where
  | lex (h : (lex source names).1 = .error e)
  | tokens (requests : List CharStream.Request)
      (h : (Lexer.tokens ⟨(CharStream.ofString source).behindAll requests, names⟩).1 = .error e)
  | parse (h : (parseSource source names).1 = .error (.lexical e))
  | run {limit : Nat} {console : Console} {fuel : Nat} {after : Aftermath}
      (h : runSource source names limit console fuel = .failed (.syntactic (.lexical e)) after)

section
variable {source : String} {names : Interner} {e : LexError}

theorem parseSource_of_runSource {limit fuel : Nat} {console : Console} {after : Aftermath}
    (h : runSource source names limit console fuel = .failed (.syntactic (.lexical e)) after) :
    (parseSource source names).1 = .error (.lexical e) := by
  rw [runSource_eq] at h
  rcases hparse : parseSource source names with ⟨e' | tree, later⟩
  · rw [hparse] at h
    cases h
    rfl
  · rw [hparse] at h
    simp only at h
    generalize eval _ fuel _ 0 _ = o at h
    cases o <;> cases h

/-- Reading a source meets the lexical error that cutting it into tokens meets. -/
theorem lex_of_parseSource (hnames : names.Consistent)
    (h : (parseSource source names).1 = .error (.lexical e)) : (lex source names).1 = .error e := by
  rcases hlex : lex source names with ⟨e' | tokens, names'⟩
  · rcases parseSource_of_lex_error hnames (congrArg Prod.fst hlex) with h' | ⟨e'', h', -⟩
    · rw [h] at h'
      cases h'
      rfl
    · rw [h] at h'
      cases h'
  · exact absurd h ((parseSource_of_lex_ok hnames hlex).1 e)

/-- The error is one of cutting the source into tokens from some place on. -/
theorem TellsLexError.exists_tokens (hnames : names.Consistent) (h : TellsLexError source names e) :
    ∃ requests,
      (Lexer.tokens ⟨(CharStream.ofString source).behindAll requests, names⟩).1 = .error e := by
  cases h with
  | lex h => exact ⟨[], h⟩
  | tokens requests h => exact ⟨requests, h⟩
  | parse h => exact ⟨[], lex_of_parseSource hnames h⟩
  | run h => exact ⟨[], lex_of_parseSource hnames (parseSource_of_runSource h)⟩

/-- A verdict that something is wrong tells a place in the source. -/
theorem CharStream.StandsIn.place_of_verdict {text : List Char} {s : CharStream}
    (hs : StandsIn text s) (hsize : byteCount text ≤ maxOffset)
    (h : Verdict s.position s.rest (.error e)) :
    ∃ before after, text = before ++ after ∧ e.offset = byteCount before ∧
      e.line = 1 + before.count '\n' ∧ e.column = (lastLine before).length := by
  obtain ⟨read, rfl, hposition⟩ := hs
  rw [hposition] at h
  generalize he : Except.error e = verdict at h
  cases h with
  | @stray skipped c hstray =>
    obtain ⟨tail, hrest⟩ := hstray.split
    rw [hrest, ← List.append_assoc] at hsize ⊢
    have hbytes : byteCount (read ++ skipped) ≤ maxOffset := by
      rw [byteCount_append] at hsize
      omega
    rw [← Position.afterAll_append, fail_start hbytes] at he
    cases he
    exact ⟨read ++ skipped, c :: tail, rfl, rfl, rfl, rfl⟩
  | unclosed =>
    rw [← Position.afterAll_append, fail_start hsize] at he
    cases he
    exact ⟨read ++ s.rest, [], (List.append_nil _).symm, rfl, rfl, rfl⟩
  | nothing => cases he

/-- A lexical error is told of a place in the source. -/
theorem TellsLexError.exists_place (hnames : names.Consistent)
    (hsize : byteCount source.toList ≤ maxOffset) (h : TellsLexError source names e) :
    ∃ before after, source.toList = before ++ after ∧ e.offset = byteCount before ∧
      e.line = 1 + before.count '\n' ∧ e.column = (lastLine before).length := by
  obtain ⟨requests, htokens⟩ := h.exists_tokens hnames
  have hverdict := Lexer.verdict_scan
    (l := ⟨(CharStream.ofString source).behindAll requests, names⟩) hnames
  rw [(Lexer.tokens_eq_scan _).1] at htokens
  cases hending : (Lexer.scan ⟨(CharStream.ofString source).behindAll requests, names⟩).ending with
  | ok offset =>
    rw [hending] at htokens
    cases htokens
  | error e' =>
    rw [hending] at htokens hverdict
    cases htokens
    exact (CharStream.standsIn_behindAll source requests).place_of_verdict hsize hverdict

end

/-- The line that tells where an error is. -/
def Renderer.placeLine (path : String) (line column gutter : Nat) : String :=
  blanks gutter ++ "--> " ++ path ++ s!":{line}:{column}\n"

/-- A diagnostic with one label is shown behind the place of the label. -/
theorem Renderer.exists_render {colors : Bool} {path source : String} {d : Diagnostic}
    {label : Label} {line column : Nat} (hlabels : d.labels = [label])
    (hposition : (LineTable.ofText source.toList).position source.toList label.span.start =
      (line, column)) :
    ∃ gutter rest, Renderer.render ⟨colors, some (.ofString path source)⟩ d =
      Renderer.header ⟨colors, some (.ofString path source)⟩ d ++
        (placeLine path line column gutter ++ rest) := by
  have hspan : d.primarySpan? = some label.span := by
    rw [Diagnostic.primarySpan?, hlabels]
    rfl
  let file : SourceFile := .ofString path source
  let gutter := gutterWidth file d.labels
  refine ⟨gutter, blanks gutter ++ (" |\n" ++ (String.join (d.labels.map
    (snippet ⟨colors, some file⟩ file gutter)) ++ String.join (d.notes.map note))), ?_⟩
  simp only [render, labels, snippets, hspan, file, gutter, SourceFile.ofString, hposition,
    placeLine, String.append_assoc]

/-- What a stream counts while it reads is what a line table finds for its offset. So the place in
the message of a lexical error is that of the character in front of which it was met, and it is the
place that is shown above the source, where columns count from one. -/
theorem positions_agree {source : String} (hsize : byteCount source.toList < maxOffset) :
    (∀ requests : List CharStream.Request,
      (LineTable.ofText source.toList).position source.toList
          ((CharStream.ofString source).behindAll requests).offset =
        (((CharStream.ofString source).behindAll requests).position.line,
          ((CharStream.ofString source).behindAll requests).position.column + 1)) ∧
    ∀ (names : Interner) (e : LexError), names.Made → TellsLexError source names e →
      (∃ before after, source.toList = before ++ after ∧ e.offset = byteCount before ∧
        e.line = 1 + before.count '\n' ∧ e.column = (lastLine before).length) ∧
      e.message = e.fault.message ++ s!" ({e.line}:{e.column})" ∧
      ∀ colors path, ∃ gutter rest,
        Renderer.render ⟨colors, some (.ofString path source)⟩ e.diagnostic =
          Renderer.header ⟨colors, some (.ofString path source)⟩ e.diagnostic ++
            (Renderer.placeLine path e.line (e.column + 1) gutter ++ rest) := by
  have hle := Nat.le_of_lt hsize
  refine ⟨fun requests => (CharStream.standsIn_behindAll source requests).position_eq hle, ?_⟩
  intro names e hnames htells
  obtain ⟨before, after, hsource, hoffset, hline, hcolumn⟩ :=
    htells.exists_place hnames.consistent hle
  refine ⟨⟨before, after, hsource, hoffset, hline, hcolumn⟩, rfl, fun colors path => ?_⟩
  have hfound : (LineTable.ofText source.toList).position source.toList e.offset =
      (e.line, e.column + 1) := by
    rw [hsource] at hle
    rw [hsource, hoffset, LineTable.position_byteCount hle, hline, hcolumn]
  exact Renderer.exists_render rfl hfound

/-- A string with a character of two bytes and a line feed in it, and behind it a letter that begins
no token: it is told as `3:1` in the message and as `3:2` above the source. -/
theorem positions_agree_umlaut :
    ((CharStream.ofString "\x22é\n\x22\n ü").behindAll
      [.next, .skipLine, .peek, .eatWhile (· != ' '), .next]).position = ⟨7, 3, 1⟩ ∧
    (LineTable.ofText "\x22é\n\x22\n ü".toList).position "\x22é\n\x22\n ü".toList 7 = (3, 2) ∧
    (lex "\x22é\n\x22\n ü" .fresh).1 = .error ⟨.invalidCharacter 'ü', 3, 1, 7⟩ ∧
    ∃ gutter rest, Renderer.render ⟨false, some (.ofString "a.lm" "\x22é\n\x22\n ü")⟩
        (LexError.diagnostic ⟨.invalidCharacter 'ü', 3, 1, 7⟩) =
      Renderer.header ⟨false, some (.ofString "a.lm" "\x22é\n\x22\n ü")⟩
          (LexError.diagnostic ⟨.invalidCharacter 'ü', 3, 1, 7⟩) ++
        (Renderer.placeLine "a.lm" 3 2 gutter ++ rest) := by
  obtain ⟨hplaces, herrors⟩ := @positions_agree "\x22é\n\x22\n ü" (by decide)
  have hlex : (lex "\x22é\n\x22\n ü" .fresh).1 = .error ⟨.invalidCharacter 'ü', 3, 1, 7⟩ := by
    with_unfolding_all rfl
  obtain ⟨-, -, hshown⟩ := herrors .fresh _ .fresh (.lex hlex)
  exact ⟨by decide, hplaces [.next, .skipLine, .peek, .eatWhile (· != ' '), .next], hlex,
    hshown false "a.lm"⟩

end LambdaScript
