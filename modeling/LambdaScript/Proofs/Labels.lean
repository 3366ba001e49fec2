import LambdaScript.Diagnostic.Report
import LambdaScript.Proofs.Modes
import LambdaScript.Proofs.Nodes
import LambdaScript.Proofs.Partition
import LambdaScript.Proofs.Rejection
import LambdaScript.Proofs.Session
/-!
# Where errors point

The report of every error has one label, with a range of the source (`labels_runSource`). A lexical
error points between two characters and an error at the end of the source behind the last one. All
other errors are about a token or about an expression that was read from tokens, and these
`Cover` some characters.

The spans of runtime errors are those of expressions in the program, because lexical scoping tells
where every expression stands that is ever evaluated (`covers_of_runtime`).
-/

namespace LambdaScript

/-- The offset lies between two characters of the text, or at one of its ends. -/
def Boundary (text : List Char) (offset : Nat) : Prop :=
  ∃ before after, text = before ++ after ∧ offset = byteCount before

/-- The span covers some characters of the text, and none of them in part. -/
structure Covers (text : List Char) (s : Span) : Prop where
  start_lt_stop : s.start < s.stop
  start : Boundary text s.start
  stop : Boundary text s.stop

theorem Boundary.le {text : List Char} {offset : Nat} (h : Boundary text offset) :
    offset ≤ byteCount text := by
  obtain ⟨before, after, rfl, rfl⟩ := h
  rw [byteCount_append]
  exact Nat.le_add_right _ _

theorem boundary_end (text : List Char) : Boundary text (byteCount text) :=
  ⟨text, [], (List.append_nil text).symm, rfl⟩

theorem mergeClosed_covers (text : List Char) : Grammar.MergeClosed (Covers text) := by
  intro s t hs ht
  have hlt := hs.start_lt_stop
  refine ⟨?_, ?_, ?_⟩
  · show min s.start t.start < max s.stop t.stop
    omega
  · rcases Nat.le_total s.start t.start with hle | hle
    · simpa [Span.merge, Nat.min_eq_left hle] using hs.start
    · simpa [Span.merge, Nat.min_eq_right hle] using ht.start
  · rcases Nat.le_total s.stop t.stop with hle | hle
    · simpa [Span.merge, Nat.max_eq_right hle] using ht.stop
    · simpa [Span.merge, Nat.max_eq_left hle] using hs.stop

/-- The span is a range of the text, and it is empty exactly if `empty` holds. -/
structure Span.RangeOf (text : List Char) (empty : Prop) (s : Span) : Prop where
  start_le_stop : s.start ≤ s.stop
  stop_le : s.stop ≤ byteCount text
  start : Boundary text s.start
  stop : Boundary text s.stop
  start_eq_stop : s.start = s.stop ↔ empty

theorem Covers.rangeOf {text : List Char} {s : Span} {empty : Prop} (h : Covers text s)
    (hempty : ¬empty) : s.RangeOf text empty where
  start_le_stop := Nat.le_of_lt h.start_lt_stop
  stop_le := h.stop.le
  start := h.start
  stop := h.stop
  start_eq_stop := iff_of_false (Nat.ne_of_lt h.start_lt_stop) hempty

theorem rangeOf_point {text : List Char} {offset : Nat} {empty : Prop} (h : Boundary text offset)
    (hempty : empty) : (Span.point offset).RangeOf text empty where
  start_le_stop := Nat.le_refl _
  stop_le := h.le
  start := h
  stop := h
  start_eq_stop := iff_of_true rfl hempty

section
variable {source : String} {names : Interner}

/-! ## Tokens -/

/-- Up to its last token every source can be cut. -/
theorem exists_scanned (source : String) (hnames : names.Consistent) :
    ∃ text rest offset later, source.toList = text ++ rest ∧
      Lexer.scan ⟨⟨text, .start⟩, names⟩ =
        ⟨(scanSource source names).tokens, .ok offset, later⟩ := by
  obtain ⟨text, m, hcut⟩ := Lexer.exists_cut (l := ⟨.ofString source, names⟩) hnames
    (List.append_nil _).symm
  have hscan := hcut.scan [] fun c hc => nomatch hc
  rw [Lexer.scan_of_end (Lexer.read_nil _ _)] at hscan
  simp only [List.append_nil] at hscan
  exact ⟨text, m.chars.rest, _, _, hcut.source, hscan⟩

/-- The tokens of a source cover characters, also if the source cannot be cut to its end. -/
theorem covers_of_mem_scanSource (hnames : names.Consistent)
    (hsize : byteCount source.toList ≤ maxOffset) {t : Token}
    (ht : t ∈ (scanSource source names).tokens) : Covers source.toList t.span := by
  obtain ⟨text, rest, offset, later, hsource, hscan⟩ := exists_scanned source hnames
  rw [hsource, byteCount_append] at hsize
  have hpartition := Lexer.partition_scan (l := ⟨⟨text, .start⟩, names⟩) hnames
    (by simp only [CharStream.total, Position.start]; omega) (congrArg TokenList.ending hscan)
  simp only [hscan] at hpartition
  obtain ⟨before, lexeme, after, rfl, hspan, hlexeme, -⟩ := hpartition.exists_lexeme ht
  have hzero : Position.start.bytes = 0 := rfl
  have hpos := byteCount_pos hlexeme.ne_nil
  simp only [hzero, Nat.zero_add] at hspan
  rw [hsource, hspan]
  refine ⟨Nat.lt_add_of_pos_right hpos, ⟨before, lexeme ++ (after ++ rest), by simp, rfl⟩, ?_⟩
  exact ⟨before ++ lexeme, after ++ rest, by simp, (byteCount_append before lexeme).symm⟩

theorem every_of_mem_scanSource (hnames : names.Consistent)
    (hsize : byteCount source.toList ≤ maxOffset) :
    ∀ t ∈ (scanSource source names).tokens, t.Every (Covers source.toList) fun _ => True :=
  fun _ ht => ⟨covers_of_mem_scanSource hnames hsize ht, fun _ _ => trivial⟩

/-! ## Lexical errors -/

/-- A lexical error is met between two characters. -/
theorem boundary_of_ending (hnames : names.Consistent)
    (hsize : byteCount source.toList ≤ maxOffset) {e : LexError}
    (h : (scanSource source names).ending = .error e) : Boundary source.toList e.offset := by
  have hverdict := Lexer.verdict_scan (l := ⟨.ofString source, names⟩) hnames
  change Verdict .start source.toList ((scanSource source names).ending.map fun _ => ()) at hverdict
  rw [h] at hverdict
  obtain ⟨fault, line, column, offset⟩ := e
  cases fault with
  | invalidCharacter c =>
    obtain ⟨before, hstray, -, -, rfl⟩ := (verdict_stray_iff hsize).mp hverdict
    obtain ⟨after, hsource⟩ := hstray.split
    exact ⟨before, c :: after, hsource, rfl⟩
  | unterminatedString =>
    obtain ⟨-, -, -, -, rfl⟩ := (verdict_unclosed_iff hsize).mp hverdict
    exact boundary_end source.toList

/-! ## Errors against the grammar -/

/-- The fault is that the source ends where more was needed. -/
def ParseFault.AtEnd : ParseFault → Prop
  | unexpectedEnd _ => True
  | expectedParameterName found => found = "end of input"
  | unexpectedToken _ | mismatch _ _ | invalidAssignmentTarget => False

/-- The range of an error against the grammar: some characters, or the place behind the last one. -/
structure ParseError.Located (text : List Char) (e : ParseError) : Prop where
  covers : ¬e.fault.AtEnd → Covers text e.span
  point : e.fault.AtEnd → e.span = .point (byteCount text)

namespace Grammar

variable {c : Config} {complaint : Complaint} {t : Token}

theorem located_token (ht : t.Every (Covers source.toList) fun _ => True)
    (hc : c.Every (Covers source.toList) fun _ => True)
    (h : c.feed names (some t) = .error complaint) :
    (complaint.report names 0 (some t)).Located source.toList := by
  cases complaint with
  | noExpression | noPunct | noKeyword => exact ⟨fun _ => ht.1, False.elim⟩
  | noParameter =>
    exact ⟨fun _ => ht.1, fun hend => absurd hend (describe_ne_endOfInput t.kind names)⟩
  | badTarget span => exact ⟨fun _ => every_of_badTarget h hc, False.elim⟩

theorem located_end (hc : c.Every (Covers source.toList) fun _ => True)
    (h : c.feed names none = .error complaint) :
    (complaint.report names (byteCount source.toList) none).Located source.toList := by
  cases complaint with
  | noExpression | noPunct | noKeyword => exact ⟨fun hnot => absurd trivial hnot, fun _ => rfl⟩
  | noParameter => exact ⟨fun hnot => absurd rfl hnot, fun _ => rfl⟩
  | badTarget span => exact ⟨fun _ => every_of_badTarget h hc, False.elim⟩

end Grammar

/-- Why a source is no program. -/
theorem located_of_parseSource (hnames : names.Consistent)
    (hsize : byteCount source.toList ≤ maxOffset) {e : SyntaxError}
    (h : (parseSource source names).1 = .error e) :
    (∃ l, e = .lexical l ∧ (scanSource source names).ending = .error l) ∨
      ∃ g, e = .grammatical g ∧ g.Located source.toList := by
  have hrun := (Grammar.parse_eq_run (presents_ofString source hnames)).symm.trans h
  obtain ⟨left, hverdict⟩ : ∃ left, Grammar.Config.start.run (scanSource source names).names
      (scanSource source names).ending (scanSource source names).tokens = (.error e, left) :=
    ⟨_, Prod.ext hrun rfl⟩
  have hevery : ∀ t ∈ (scanSource source names).tokens, t.Every _ _ :=
    every_of_mem_scanSource hnames hsize
  have hmerge := mergeClosed_covers source.toList
  rcases Grammar.Config.run_error_cases hverdict with ⟨l, rfl⟩ |
    ⟨before, t, c, complaint, htokens, ht, hall, herror, rfl⟩ |
    ⟨offset, c, complaint, hending, -, hall, herror, rfl⟩
  · exact .inl ⟨l, rfl, Grammar.Config.ending_of_run_lexical hverdict⟩
  · rw [htokens] at hevery
    obtain ⟨hbefore, hleft⟩ := List.forall_mem_append.mp hevery
    have hc := Grammar.every_feedAll hmerge hall Grammar.every_start hbefore
    exact .inr ⟨_, rfl, Grammar.located_token (hleft t (List.mem_of_mem_head? ht)) hc herror⟩
  · have hc := Grammar.every_feedAll hmerge hall Grammar.every_start hevery
    rw [ending_scanSource hending, clampOffset_of_le hsize]
    exact .inr ⟨_, rfl, Grammar.located_end hc herror⟩

/-! ## Runtime errors -/

/-- No error comes from a program without expressions. -/
theorem eval_nil_ne_failed {ctx : Context} {fuel : Nat} {s : Span} {scope : ScopeId}
    {m m' : Machine} {e : RuntimeError} : eval ctx fuel (.seq s []) scope m ≠ .failed e m' := by
  cases fuel with
  | zero => exact fun h => nomatch h
  | succ fuel => exact fun h => nomatch h

/-- A runtime error is about an expression of the program, which covers some characters. -/
theorem covers_of_runtime {names' later : Interner} {tree : Tree} {i i' : Interpreter}
    {fuel : Nat} {e : RuntimeError} (hnames : names.Consistent)
    (hsize : byteCount source.toList ≤ maxOffset)
    (hparse : parseSource source names = (.ok tree, names')) (hi : Interpreter.Session i [])
    (h : Interpreter.evalProgram later fuel tree i = .failed e i') :
    ∃ span, e.span = some span ∧ Covers source.toList span := by
  obtain ⟨hrun, -⟩ := (parseSource_eq_ok_iff hnames).mp hparse
  obtain ⟨items, rfl, hitems⟩ := Grammar.every_of_run_ok (mergeClosed_covers source.toList) hrun
    (every_of_mem_scanSource hnames hsize)
  obtain ⟨m, houtcome, -⟩ := Interpreter.outcome_of_failed h
  have hne : items ≠ [] := by
    rintro rfl
    exact eval_nil_ne_failed houtcome
  have htree := Grammar.every_program (mergeClosed_covers source.toList) hne hitems
  -- the moment that raised the error stands somewhere in the program
  obtain ⟨q, m', hreaches, -, hspan, -⟩ := Moment.exists_raises houtcome
  have hscoped := (lexical (i.context later) _ i.global _).holds
    ((hi.ready.load (.seq (Grammar.programSpan items) items)).scoped
      (List.mem_append_right _ List.mem_cons_self) later fuel) hreaches
  obtain ⟨around, ⟨⟨root, hroot, hwithin⟩, -⟩, -⟩ := hscoped.shaped
  obtain rfl := List.mem_singleton.mp hroot
  exact ⟨_, hspan, (hwithin.every (Expr.every_numbered htree)).span⟩

end

/-! ## Whole runs -/

namespace RunError

/-- The source cannot be cut into tokens. -/
def IsLexical : RunError → Prop
  | syntactic (.lexical _) => True
  | _ => False

/-- The source ends where more was needed. -/
def AtEnd : RunError → Prop
  | syntactic (.grammatical e) => e.fault.AtEnd
  | _ => False

end RunError

/-- The report of an error has one label, which is about a range of the source. The range is empty
exactly for lexical errors and for errors at the end of the source, where it is the last place. -/
theorem labels_runSource {source : String} {names : Interner} {limit : Nat} {console : Console}
    {fuel : Nat} {e : RunError} {aftermath : Aftermath} (hnames : names.Made)
    (hsize : byteCount source.toList < maxOffset)
    (h : runSource source names limit console fuel = .failed e aftermath) :
    ∃ label, e.diagnostic.labels = [label] ∧
      label.span.RangeOf source.toList (e.IsLexical ∨ e.AtEnd) ∧
      (e.AtEnd → label.span = .point (byteCount source.toList)) := by
  have hle := Nat.le_of_lt hsize
  rw [runSource] at h
  rcases hparse : parseSource source names with ⟨error | tree, names'⟩
  · rw [hparse] at h
    cases h
    have herror : (parseSource source names).1 = .error error := by rw [hparse]
    rcases located_of_parseSource hnames.consistent hle herror with
      ⟨l, rfl, hending⟩ | ⟨g, rfl, hg⟩
    · refine ⟨_, rfl, ?_, False.elim⟩
      exact rangeOf_point (boundary_of_ending hnames.consistent hle hending) (.inl trivial)
    · refine ⟨_, rfl, ?_, hg.point⟩
      by_cases hend : g.fault.AtEnd
      · show g.span.RangeOf _ _
        rw [hg.point hend]
        exact rangeOf_point (boundary_end source.toList) (.inr hend)
      · exact (hg.covers hend).rangeOf fun hor => hor.elim id hend
  · simp only [hparse] at h
    have hsession : Interpreter.Session (Interpreter.build names' console limit []).1 [] :=
      .build fun _ _ => List.not_mem_nil
    split at h
    · cases h
    · next error i' hrun =>
      cases h
      obtain ⟨span, hspan, hcovers⟩ := covers_of_runtime hnames.consistent hle hparse hsession hrun
      have hlabels : (RunError.runtime error).diagnostic.labels = [⟨span, error.remark⟩] := by
        simp only [RunError.diagnostic, RuntimeError.diagnostic, hspan]
        rfl
      exact ⟨_, hlabels, hcovers.rangeOf fun hor => hor.elim id id, False.elim⟩
    · cases h

/-- The error that ended a run. -/
def Outcome.error? {ε σ α : Type} : Outcome ε σ α → Option ε
  | .failed e _ => some e
  | _ => none

theorem Outcome.exists_failed {ε σ α : Type} {o : Outcome ε σ α} {e : ε} (h : o.error? = some e) :
    ∃ s, o = .failed e s := by
  cases o with
  | failed e' s =>
    cases h
    exact ⟨s, rfl⟩
  | done | unfinished => contradiction

/-- A call that fails inside a function which was called further down; the characters in it take
seven bytes. -/
theorem labels_runSource_call : ∃ e aftermath label,
    runSource "f = lambda (x) x(\x22é\x22); f(true)" .fresh 1 (.buffer "") 6 = .failed e aftermath ∧
      e.diagnostic.labels = [label] ∧ label.span = ⟨15, 22⟩ ∧
      label.span.RangeOf "f = lambda (x) x(\x22é\x22); f(true)".toList False := by
  obtain ⟨aftermath, hrun⟩ : ∃ aftermath,
      runSource "f = lambda (x) x(\x22é\x22); f(true)" .fresh 1 (.buffer "") 6 =
        .failed (.runtime ⟨.notCallable .boolean, some ⟨15, 22⟩⟩) aftermath :=
    Outcome.exists_failed (by decide +kernel)
  obtain ⟨label, hlabels, hrange, -⟩ := labels_runSource .fresh (by decide) hrun
  have hlabel : label = ⟨⟨15, 22⟩, "in this call"⟩ := (List.singleton_inj.mp hlabels).symm
  subst hlabel
  refine ⟨_, aftermath, _, hrun, rfl, rfl, ?_⟩
  exact ⟨hrange.start_le_stop, hrange.stop_le, hrange.start, hrange.stop, by decide⟩

end LambdaScript
