import LambdaScript.Proofs.Lexemes
import LambdaScript.Source.LineTable
/-!
# The tokens of a source are a partition of it

A `Partition` cuts a text into layout and lexemes, each lexeme as long as it can be, and gives every
lexeme its token with the bytes that it takes. What a lexer reads is a partition
(`Lexer.partition_scan`), and every partition is what a lexer reads (`Partition.scan_eq`). So the
tokens of a source are its only partition (`partition_lex`).
-/

namespace LambdaScript

/-- A text that begins at byte `offset`, cut into layout and lexemes, with the tokens that these
spell. No lexeme is followed by a character that would make it longer. -/
inductive Partition (names : Interner) : Nat → List Char → List Token → Prop where
  | last {offset : Nat} {text : List Char} (h : Layout True text) : Partition names offset text []
  | token {offset : Nat} {gap lexeme rest : List Char} {kind : TokenKind} {tokens : List Token}
      (hgap : Layout False gap) (hlexeme : kind.SpelledBy names lexeme)
      (hnext : ∀ c, rest.head? = some c → kind.Continues c = false)
      (h : Partition names (offset + byteCount gap + byteCount lexeme) rest tokens) :
      Partition names offset (gap ++ (lexeme ++ rest))
        (⟨kind, ⟨offset + byteCount gap, offset + byteCount gap + byteCount lexeme⟩⟩ :: tokens)

theorem clampOffset_of_le {bytes : Nat} (h : bytes ≤ maxOffset) : clampOffset bytes = bytes :=
  Nat.min_eq_left h

namespace Lexer

/-- What is read is a partition of the text. -/
theorem partition_scan {l : Lexer} {offset : Nat} (hnames : l.names.Consistent)
    (hsize : l.chars.total ≤ maxOffset) (hending : l.scan.ending = .ok offset) :
    Partition l.scan.names l.chars.position.bytes l.chars.rest l.scan.tokens := by
  fun_induction scan l with
  | case1 l t m hread more ih =>
    obtain ⟨gap, rest, hsource, hgap, hmeets⟩ := exists_meets hnames
    have hnumbers := numbers_read hnames
    have htotal := total_read l
    rw [hread] at hmeets hnumbers htotal
    -- the spans are not clamped, because they end where the rest begins
    simp only [CharStream.total] at hsize htotal
    generalize hp : l.chars.position.afterAll gap = p at hmeets
    have hbytes : p.bytes = l.chars.position.bytes + byteCount gap := by
      rw [← hp, Position.bytes_afterAll]
    cases hmeets with
    | @token lexeme tail kind names' _ hlexeme hnext =>
      have hpartition := ih hnumbers.consistent (by rw [CharStream.total]; omega) hending
      have hgrows := (numbers_scan hnumbers.consistent).2.1
      simp only [Position.bytes_afterAll, hbytes] at hpartition htotal ⊢
      rw [hsource, clampOffset_of_le (by omega), clampOffset_of_le (by omega)]
      exact .token hgap (hlexeme.grows hgrows) hnext hpartition
  | case2 l m hread =>
    obtain ⟨gap, rest, hsource, hgap, hmeets⟩ := exists_meets hnames
    rw [hread] at hmeets
    rw [hsource]
    cases hmeets with
    | stop h => exact .last (hgap.append h)
  | case3 l e m hread => contradiction

end Lexer

namespace Partition

variable {names : Interner} {offset : Nat} {text : List Char} {tokens : List Token}

/-- Every partition is what a lexer reads. -/
theorem scan_eq (h : Partition names offset text tokens) (hnames : names.Consistent)
    {p : Position} (hp : p.bytes = offset) (hsize : offset + byteCount text ≤ maxOffset) :
    ∃ ending, Lexer.scan ⟨⟨text, p⟩, names⟩ = ⟨tokens, .ok ending, names⟩ := by
  induction h generalizing p with
  | last h => exact ⟨_, Lexer.scan_of_end (Lexer.read_last h p names)⟩
  | @token offset gap lexeme rest kind tokens hgap hlexeme hnext _ ih =>
    simp only [byteCount_append] at hsize
    have hread := Lexer.read_lexeme hnames hlexeme hnext (p.afterAll gap)
    rw [← Lexer.read_layout hgap] at hread
    simp only [Position.bytes_afterAll, hp] at hread
    rw [clampOffset_of_le (by omega), clampOffset_of_le (by omega)] at hread
    obtain ⟨ending, hscan⟩ := @ih ((p.afterAll gap).afterAll lexeme)
      (by simp only [Position.bytes_afterAll, hp]) (by omega)
    exact ⟨ending, by rw [Lexer.scan_of_token hread, hscan]⟩

/-- Where the lexeme of a token stands. -/
theorem exists_lexeme (h : Partition names offset text tokens) {t : Token} (ht : t ∈ tokens) :
    ∃ before lexeme after, text = before ++ (lexeme ++ after) ∧
      t.span = ⟨offset + byteCount before, offset + byteCount before + byteCount lexeme⟩ ∧
      t.kind.SpelledBy names lexeme ∧ ∀ c, after.head? = some c → t.kind.Continues c = false := by
  induction h with
  | last => contradiction
  | @token offset gap lexeme rest kind tokens hgap hlexeme hnext _ ih =>
    rcases List.mem_cons.mp ht with rfl | ht
    · exact ⟨gap, lexeme, rest, rfl, rfl, hlexeme, hnext⟩
    · obtain ⟨before, found, after, rfl, hspan, hfound⟩ := ih ht
      refine ⟨gap ++ (lexeme ++ before), found, after, by simp, ?_, hfound⟩
      rw [hspan, byteCount_append, byteCount_append]
      simp only [Nat.add_assoc]

/-- The tokens stand one behind the other. -/
theorem pairwise (h : Partition names offset text tokens) :
    tokens.Pairwise fun t u => t.span.stop ≤ u.span.start := by
  induction h with
  | last => exact .nil
  | token _ _ _ h ih =>
    refine .cons (fun u hu => ?_) ih
    obtain ⟨before, _, _, -, hspan, -⟩ := h.exists_lexeme hu
    rw [hspan]
    exact Nat.le_add_right _ _

end Partition

/-! ## Cutting at offsets -/

theorem byteCount_pos {text : List Char} (h : text ≠ []) : 0 < byteCount text := by
  obtain ⟨c, tail, rfl⟩ := List.exists_cons_of_ne_nil h
  exact Nat.add_pos_left c.utf8Size_pos _

/-- The bytes of a text end between characters. -/
theorem dropBytes?_append (before text : List Char) :
    dropBytes? (byteCount before) (before ++ text) = some text := by
  induction before with
  | nil => simp only [byteCount, List.nil_append, dropBytes?]
  | cons c before ih =>
    have hpos := c.utf8Size_pos
    obtain ⟨n, hn⟩ : ∃ n, byteCount (c :: before) = n + 1 :=
      Nat.exists_eq_add_one.mpr (byteCount_pos (List.cons_ne_nil _ _))
    have hbytes : c.utf8Size + byteCount before = n + 1 := hn
    have hrest : n + 1 - c.utf8Size = byteCount before := by omega
    rw [hn, List.cons_append, dropBytes?, if_pos (by omega), hrest, ih]

theorem takeBytes?_append (run text : List Char) :
    takeBytes? (byteCount run) (run ++ text) = some run := by
  induction run with
  | nil => simp only [byteCount, List.nil_append, takeBytes?]
  | cons c run ih =>
    have hpos := c.utf8Size_pos
    obtain ⟨n, hn⟩ : ∃ n, byteCount (c :: run) = n + 1 :=
      Nat.exists_eq_add_one.mpr (byteCount_pos (List.cons_ne_nil _ _))
    have hbytes : c.utf8Size + byteCount run = n + 1 := hn
    have hrest : n + 1 - c.utf8Size = byteCount run := by omega
    rw [hn, List.cons_append, takeBytes?, if_pos (by omega), hrest, ih, Option.map_some]

theorem slice?_append (before run after : List Char) :
    slice? (before ++ (run ++ after)) (byteCount before) (byteCount before + byteCount run) =
      some run := by
  rw [slice?, if_pos (Nat.le_add_right _ _), dropBytes?_append, Option.bind_some,
    Nat.add_sub_cancel_left, takeBytes?_append]

theorem isSuffix_dropBytes? {n : Nat} {text rest : List Char} (h : dropBytes? n text = some rest) :
    rest <:+ text := by
  fun_induction dropBytes? n text with
  | case1 text =>
    cases h
    exact List.suffix_rfl
  | case2 n => contradiction
  | case3 n c text hsize ih => exact (ih h).trans (List.suffix_cons c text)
  | case4 n c text hsize => contradiction

theorem isPrefix_takeBytes? {n : Nat} {text run : List Char} (h : takeBytes? n text = some run) :
    run <+: text := by
  fun_induction takeBytes? n text generalizing run with
  | case1 text =>
    cases h
    exact List.nil_prefix
  | case2 n => contradiction
  | case3 n c text hsize ih =>
    obtain ⟨rest, hrest, rfl⟩ := Option.map_eq_some_iff.mp h
    exact (List.prefix_cons_inj c).mpr (ih hrest)
  | case4 n c text hsize => contradiction

/-- What is cut out of a text stands in it, whatever the offsets are. -/
theorem isInfix_slice (text : List Char) (start stop : Nat) : slice text start stop <:+: text := by
  rw [slice]
  cases hslice : slice? text start stop with
  | none => exact List.nil_infix
  | some run =>
    unfold slice? at hslice
    split at hslice
    · obtain ⟨rest, hrest, hrun⟩ := Option.bind_eq_some_iff.mp hslice
      exact (isPrefix_takeBytes? hrun).isInfix.trans (isSuffix_dropBytes? hrest).isInfix
    · contradiction

/-! ## Sources -/

/-- The tokens of a source are its only partition: they stand one behind the other, each takes some
bytes that spell it and are not followed by a character that would make it longer, and between them
there is layout. -/
theorem partition_lex {source : String} {names names' : Interner} {tokens : List Token}
    (hnames : names.Made) (hsize : byteCount source.toList < maxOffset)
    (hlex : lex source names = (.ok tokens, names')) :
    Partition names' 0 source.toList tokens ∧
      (∀ others, Partition names' 0 source.toList others → others = tokens) ∧
      tokens.Pairwise (fun t u => t.span.stop ≤ u.span.start) ∧
      ∀ t ∈ tokens, t.span.start < t.span.stop ∧ ∃ before lexeme after,
        source.toList = before ++ (lexeme ++ after) ∧ t.span.start = byteCount before ∧
        slice? source.toList t.span.start t.span.stop = some lexeme ∧
        t.kind.SpelledBy names' lexeme ∧
        ∀ c, after.head? = some c → t.kind.Continues c = false := by
  obtain ⟨ending, hscan⟩ := lex_eq_ok_iff.mp hlex
  have htotal : (CharStream.ofString source).total = byteCount source.toList := by
    simp [CharStream.total, CharStream.ofString, Position.start]
  have hconsistent : names'.Consistent := by
    have hscanned : (scanSource source names).names.Consistent :=
      consistent_scanSource hnames.consistent
    rwa [hscan] at hscanned
  have hpartition : Partition names' 0 source.toList tokens := by
    have hfound := Lexer.partition_scan (l := ⟨.ofString source, names⟩) hnames.consistent
      (by rw [htotal]; omega) (congrArg TokenList.ending hscan)
    rwa [← scanSource, hscan] at hfound
  have hunique : ∀ others, Partition names' 0 source.toList others → others = tokens := by
    intro others hothers
    have hbound : 0 + byteCount source.toList ≤ maxOffset := by omega
    obtain ⟨_, hfirst⟩ := hpartition.scan_eq hconsistent (p := .start) rfl hbound
    obtain ⟨_, hsecond⟩ := hothers.scan_eq hconsistent (p := .start) rfl hbound
    rw [hfirst] at hsecond
    exact (congrArg TokenList.tokens hsecond).symm
  refine ⟨hpartition, hunique, hpartition.pairwise, fun t ht => ?_⟩
  obtain ⟨before, lexeme, after, hsource, hspan, hlexeme, hnext⟩ := hpartition.exists_lexeme ht
  have hpos := byteCount_pos hlexeme.ne_nil
  rw [Nat.zero_add] at hspan
  rw [hspan]
  refine ⟨by simp only; omega, before, lexeme, after, hsource, rfl, ?_, hlexeme, hnext⟩
  rw [hsource]
  exact slice?_append before lexeme after

/-- A comment with a quote in it, a string with the mark of comments in it, characters of two bytes,
and tokens without layout between them. -/
theorem partition_lex_comment_and_string : ∃ tokens names',
    lex "x1=# é\x22\n\x22ä#\x22<=12" .fresh = (.ok tokens, names') ∧
      tokens.map Token.span = [⟨0, 2⟩, ⟨2, 3⟩, ⟨9, 14⟩, ⟨14, 16⟩, ⟨16, 18⟩] ∧
      Partition names' 0 "x1=# é\x22\n\x22ä#\x22<=12".toList tokens := by
  obtain ⟨tokens, names', hlex⟩ : ∃ tokens names',
      lex "x1=# é\x22\n\x22ä#\x22<=12" .fresh = (.ok tokens, names') :=
    exists_eq_ok (by decide +kernel)
  have hspans : ((lex "x1=# é\x22\n\x22ä#\x22<=12" .fresh).1.toOption.getD []).map Token.span =
      [⟨0, 2⟩, ⟨2, 3⟩, ⟨9, 14⟩, ⟨14, 16⟩, ⟨16, 18⟩] := by
    decide +kernel
  rw [hlex] at hspans
  exact ⟨tokens, names', hlex, hspans, (partition_lex .fresh (by decide +kernel) hlex).1⟩

end LambdaScript
