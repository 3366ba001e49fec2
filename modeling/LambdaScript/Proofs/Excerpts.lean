import LambdaScript.Proofs.Extents
/-!
# Reading the source of a single node

The bytes of a program that the span of a node covers are a source of their own. The tokens in it
are those of the program that stand there (`Partition.exists_excerpt`), moved to the start of the
source, and the machine does not mind that they are moved (`Grammar.exists_alone_of_shift`).

The span covers all tokens of the node, except brackets around its first or its last part
(`Grammar.Core`). So what it covers is the node when it is read alone, unless a bracket is opened
there that is not closed there or the other way round; then it is no program
(`excerpt_reads_alone`). This is so behind brackets around the left operand of an operator, whose
closing bracket is covered without the opening one (`excerpt_rejected_leftBracket`).
-/

namespace LambdaScript

/-! ## Cutting out some tokens -/

namespace Partition

variable {names : Interner} {offset : Nat} {text : List Char} {t : Token}
  {before after tokens : List Token}

/-- From a token on. -/
theorem exists_behind (h : Partition names offset text (before ++ t :: after)) :
    ∃ front rest, text = front ++ rest ∧ t.span.start = offset + byteCount front ∧
      Partition names (offset + byteCount front) rest (t :: after) := by
  induction before generalizing offset text with
  | nil =>
    cases h with
    | @token _ gap lexeme rest kind _ hgap hlexeme hnext h =>
      exact ⟨gap, lexeme ++ rest, rfl, rfl, .token .nil hlexeme hnext h⟩
  | cons u before ih =>
    cases h with
    | @token _ gap lexeme rest kind _ hgap hlexeme hnext h =>
      obtain ⟨front, tail, rfl, hstart, hpartition⟩ := ih h
      have hbytes : offset + byteCount (gap ++ (lexeme ++ front)) =
          offset + byteCount gap + byteCount lexeme + byteCount front := by
        simp only [byteCount_append, Nat.add_assoc]
      rw [← hbytes] at hstart hpartition
      exact ⟨gap ++ (lexeme ++ front), tail, by simp, hstart, hpartition⟩

/-- Up to the end of a token. -/
theorem exists_upTo (h : Partition names offset text (tokens ++ after)) :
    ∃ run rest, text = run ++ rest ∧ Partition names offset run tokens ∧
      (tokens.map fun t => t.span.stop).getLastD offset = offset + byteCount run := by
  induction tokens generalizing offset text with
  | nil => exact ⟨[], text, rfl, .last .nil, rfl⟩
  | cons t tokens ih =>
    cases h with
    | @token _ gap lexeme rest kind _ hgap hlexeme hnext h =>
      obtain ⟨run, rest, rfl, hpartition, hstop⟩ := ih h
      have hhead : ∀ c, run.head? = some c → kind.Continues c = false :=
        fun c hc => hnext c (by rw [List.head?_append, hc]; rfl)
      refine ⟨gap ++ (lexeme ++ run), rest, by simp, .token hgap hlexeme hhead hpartition, ?_⟩
      rw [List.map_cons, List.getLastD_cons, hstop]
      simp only [byteCount_append, Nat.add_assoc]

/-- From the first to the last of some tokens that stand one behind the other. -/
theorem exists_excerpt {core : List Token} {u : Token} (h : Partition names offset text tokens)
    (hcore : core <:+: tokens) (ht : core.head? = some t) (hu : core.getLast? = some u) :
    ∃ front run rest, text = front ++ (run ++ rest) ∧ t.span.start = offset + byteCount front ∧
      u.span.stop = offset + byteCount front + byteCount run ∧
      Partition names (offset + byteCount front) run core := by
  obtain ⟨before, after, rfl⟩ := hcore
  obtain ⟨others, rfl⟩ := List.head?_eq_some_iff.mp ht
  rw [List.append_assoc, List.cons_append] at h
  obtain ⟨front, tail, rfl, hstart, hbehind⟩ := h.exists_behind
  rw [← List.cons_append] at hbehind
  obtain ⟨run, rest, rfl, hpartition, hstop⟩ := hbehind.exists_upTo
  rw [List.getLastD_eq_getLast?, List.getLast?_map, hu] at hstop
  exact ⟨front, run, rest, rfl, hstart, hstop, hpartition⟩

end Partition

/-! ## Moved tokens -/

namespace Partition

variable {names : Interner} {offset : Nat} {text : List Char} {tokens : List Token}

/-- A text that begins some bytes further in front. -/
theorem exists_shift {bytes : Nat} (h : Partition names (offset + bytes) text tokens) :
    ∃ others, tokens = others.map (Renaming.shift bytes).token ∧
      Partition names offset text others := by
  generalize hbytes : offset + bytes = start at h
  induction h generalizing offset with
  | last h => exact ⟨[], rfl, .last h⟩
  | @token start gap lexeme rest kind tokens hgap hlexeme hnext _ ih =>
    subst hbytes
    obtain ⟨others, rfl, hothers⟩ :=
      @ih (offset + byteCount gap + byteCount lexeme) (by omega)
    refine ⟨_, ?_, .token hgap hlexeme hnext hothers⟩
    rw [List.map_cons, Renaming.token_shift]
    simp only [List.cons.injEq, Token.mk.injEq, Span.mk.injEq, and_true, true_and]
    omega

end Partition

namespace Grammar

variable {names : Interner} {tokens : List Token} {e : Tree}

theorem level_token (bytes : Nat) (t : Token) :
    ((Renaming.shift bytes).token t).level = t.level := by
  obtain ⟨kind, span⟩ := t
  cases kind <;> rfl

theorem level_shift (bytes : Nat) (tokens : List Token) :
    level (tokens.map (Renaming.shift bytes).token) = level tokens := by
  induction tokens with
  | nil => rfl
  | cons t tokens ih => rw [List.map_cons, level_cons, level_cons, level_token, ih]

theorem Balanced.shift (h : Balanced tokens) (bytes : Nat) :
    Balanced (tokens.map (Renaming.shift bytes).token) where
  opened us hus := by
    obtain ⟨vs, hvs, rfl⟩ := List.prefix_map_iff.mp hus
    rw [level_shift]
    exact h.opened vs hvs
  closed := by rw [level_shift, h.closed]

theorem exists_of_step_eq_ok {r : Renaming} {result : Except Complaint Config} {c : Config}
    (h : r.step result = .ok c) : ∃ d, result = .ok d ∧ r.config d = c := by
  cases result with
  | ok d => exact ⟨d, rfl, Except.ok.inj h⟩
  | error complaint => cases h

/-- What is an expression when it is moved is one where it stands. -/
theorem exists_alone_of_shift {bytes : Nat}
    (h : Alone names (tokens.map (Renaming.shift bytes).token) e) :
    ∃ e', (Renaming.shift bytes).expr e' = e ∧ Alone names tokens e' := by
  obtain ⟨c, items, hall, hend, hprogram⟩ := exists_feedAll_of_run (congrArg Prod.fst (h 0))
  have hitems : [e] = items.reverse := (Expr.seq.inj hprogram).2
  have hsame : ∀ kind, (Renaming.shift bytes).RespellsKind names names kind := fun kind n _ => rfl
  -- the machine starts with nothing that could be moved
  have hstart : (Renaming.shift bytes).config Config.start = Config.start := rfl
  have hmoved := feedAll_renamed (merges_shift bytes) Config.start
    (fun t (_ : t ∈ tokens) => hsame t.kind)
  rw [hstart, hall] at hmoved
  obtain ⟨d, hd, rfl⟩ := exists_of_step_eq_ok hmoved.symm
  have hnone : (Renaming.shift bytes).RespellsNext names names none := fun t ht => nomatch ht
  have hfeed : ((Renaming.shift bytes).config d).feed names none =
      (Renaming.shift bytes).step (d.feed names none) :=
    feed_renamed (merges_shift bytes) d hnone
  rw [hend] at hfeed
  obtain ⟨⟨others, stack, point⟩, hdend, hwhole⟩ := exists_of_step_eq_ok hfeed.symm
  obtain ⟨hstack, hpoint⟩ := (step_of_feed hdend).eq_of_none
  obtain rfl : stack = [] := hstack
  obtain rfl : point = .item := hpoint
  have hothers : others.map (Renaming.shift bytes).expr = items := congrArg Config.items hwhole
  have hsingle : others.reverse.map (Renaming.shift bytes).expr = [e] := by
    rw [List.map_reverse, hothers, hitems]
  obtain ⟨e', rest, hreverse, he, hrest⟩ := List.map_eq_cons_iff.mp hsingle
  obtain rfl := List.map_eq_nil_iff.mp hrest
  have hsolo : others = [e'] := by
    rw [← List.reverse_reverse others, hreverse]
    rfl
  subst hsolo
  refine ⟨e', he, fun offset => ?_⟩
  rw [← List.append_nil tokens, Config.run_append hd, Config.run_nil_of_ok hdend]

theorem programSpan_singleton (e : Tree) : programSpan [e] = e.span := by
  show e.span.merge e.span = e.span
  rw [Span.merge, Nat.min_self, Nat.max_self]

end Grammar

/-! ## Sources -/

open Grammar

/-- What the span of a node covers is that node when it is read alone, or it is no program at all:
the first, if all brackets that are opened in it are closed in it, and no others. -/
theorem excerpt_reads_alone {source : String} {names names' : Interner} {tree : Tree}
    (hnames : names.Made) (hsize : byteCount source.toList < maxOffset)
    (hparse : parseSource source names = (.ok tree, names')) :
    ∀ item ∈ tree.children, ∀ e, item.Node e → ∃ excerpt tokens,
      slice? source.toList e.span.start e.span.stop = some excerpt ∧
      lex (String.ofList excerpt) names' = (.ok tokens, names') ∧
      ((Balanced tokens ∧ ∃ e', (Renaming.shift e.span.start).expr e' = e ∧
          parseSource (String.ofList excerpt) names' = (.ok (.seq e'.span [e']), names')) ∨
        (¬Balanced tokens ∧
          ∃ fault, (parseSource (String.ofList excerpt) names').1 = .error fault)) := by
  obtain ⟨items, ps, rfl, hrow, hparts, hlex, horder, hpartition⟩ :=
    exists_row_of_parseSource hnames hsize hparse
  intro item hitem e he
  have htrees : item ∈ trees ps := by
    rw [hrow.trees_eq, List.reverse_reverse]
    exact hitem
  obtain ⟨us, hmem⟩ := exists_part htrees
  obtain ⟨qs, hmade, hqs, halone, hwithin⟩ := (hparts us item hmem).exists_made he
  have hwithin := hwithin.trans (tokens_infix_flat hmem)
  have horder := horder.sublist (hwithin.sublist.map _)
  obtain ⟨opens, core, closes, hcore, hwhole⟩ :=
    hmade.exists_core horder (hqs.exists_core horder) hqs.balanced
  obtain ⟨t, ht, hstart⟩ := hcore.starts
  obtain ⟨u, hu, hstop⟩ := hcore.stops
  obtain ⟨front, run, rest, hsource, hfront, hback, hexcerpt⟩ :=
    hpartition.exists_excerpt (hcore.within.trans hwithin) ht hu
  rw [hstart, Nat.zero_add] at hfront
  rw [hstop, Nat.zero_add] at hback
  obtain ⟨tokens, rfl, htokens⟩ := hexcerpt.exists_shift
  rw [← hfront] at hwhole
  have hbytes : byteCount run ≤ maxOffset := by
    rw [hsource, byteCount_append, byteCount_append] at hsize
    omega
  have hconsistent : names'.Consistent := by
    obtain ⟨_, hscan⟩ := lex_eq_ok_iff.mp hlex
    have hscanned : (scanSource source names).names.Consistent :=
      consistent_scanSource hnames.consistent
    rwa [hscan] at hscanned
  rw [← String.toList_ofList (l := run)] at htokens hbytes
  obtain ⟨offset, hscan⟩ := htokens.scanSource_eq hconsistent hbytes
  refine ⟨run, tokens, ?_, lex_eq_ok_iff.mpr ⟨offset, hscan⟩, ?_⟩
  · rw [hsource, hfront, hback]
    exact slice?_append front run rest
  have hread : runSourceTokens (String.ofList run) names' =
      Config.start.run names' (.ok offset) tokens := by
    rw [runSourceTokens, hscan]
  by_cases hbalanced : Balanced tokens
  · rw [← hwhole (hbalanced.shift _)] at halone
    obtain ⟨e', he', halone'⟩ := exists_alone_of_shift halone
    refine .inl ⟨hbalanced, e', he', (parseSource_eq_ok_iff hconsistent).mpr ⟨?_, by rw [hscan]⟩⟩
    rw [hread, halone' offset, Config.program, List.reverse_singleton, programSpan_singleton]
  · refine .inr ⟨hbalanced, ?_⟩
    rcases hresult : parseSource (String.ofList run) names' with ⟨fault | program, later⟩
    · exact ⟨fault, rfl⟩
    · have hok := ((parseSource_eq_ok_iff hconsistent).mp hresult).1
      rw [hread] at hok
      exact absurd (balanced_of_run_ok (congrArg Prod.fst hok)) hbalanced

/-- A call with blanks in front of it. -/
theorem excerpt_reads_alone_call : ∃ tree names' item e',
    parseSource "  foo(1, 2)" .fresh = (.ok tree, names') ∧ tree.children = [item] ∧
      item.span = ⟨2, 11⟩ ∧ (Renaming.shift 2).expr e' = item ∧
      parseSource "foo(1, 2)" names' = (.ok (.seq e'.span [e']), names') := by
  obtain ⟨tree, names', hparse⟩ : ∃ tree names',
      parseSource "  foo(1, 2)" .fresh = (.ok tree, names') := exists_eq_ok (by decide +kernel)
  have hspans : (parseSource "  foo(1, 2)" .fresh).1.toOption.map (·.children.map Expr.span) =
      some [⟨2, 11⟩] := by decide +kernel
  have haccepted :
      (parseSource "foo(1, 2)" (parseSource "  foo(1, 2)" .fresh).2).1.toOption.isSome = true := by
    decide +kernel
  rw [hparse] at hspans haccepted
  obtain ⟨item, rest, hitem, hspan, hrest⟩ := List.map_eq_cons_iff.mp (Option.some.inj hspans)
  obtain rfl := List.map_eq_nil_iff.mp hrest
  obtain ⟨excerpt, tokens, hslice, -, hread⟩ :=
    excerpt_reads_alone .fresh (by decide +kernel) hparse item (by rw [hitem]; exact .head _) item
      (.root item)
  have hexcerpt : slice? "  foo(1, 2)".toList 2 11 = some "foo(1, 2)".toList := by decide +kernel
  rw [hspan, hexcerpt] at hslice
  obtain rfl := Option.some.inj hslice
  rw [String.ofList_toList] at hread
  rcases hread with ⟨-, e', he', hread⟩ | ⟨-, fault, hfault⟩
  · rw [hspan] at he'
    exact ⟨tree, names', item, e', hparse, hitem, hspan, he', hread⟩
  · rw [hfault] at haccepted
    cases haccepted

/-- Behind brackets around the left operand: only the closing one is covered. -/
theorem excerpt_rejected_leftBracket : ∃ tree names' item fault,
    parseSource "(a) * c" .fresh = (.ok tree, names') ∧ tree.children = [item] ∧
      item.span = ⟨1, 7⟩ ∧ slice? "(a) * c".toList 1 7 = some "a) * c".toList ∧
      (parseSource "a) * c" names').1 = .error fault := by
  obtain ⟨tree, names', hparse⟩ : ∃ tree names',
      parseSource "(a) * c" .fresh = (.ok tree, names') := exists_eq_ok (by decide +kernel)
  have hspans : (parseSource "(a) * c" .fresh).1.toOption.map (·.children.map Expr.span) =
      some [⟨1, 7⟩] := by decide +kernel
  have hrejected :
      (parseSource "a) * c" (parseSource "(a) * c" .fresh).2).1.toOption.isNone = true := by
    decide +kernel
  rw [hparse] at hspans hrejected
  obtain ⟨item, rest, hitem, hspan, hrest⟩ := List.map_eq_cons_iff.mp (Option.some.inj hspans)
  obtain rfl := List.map_eq_nil_iff.mp hrest
  rcases hread : (parseSource "a) * c" names').1 with fault | program
  · exact ⟨tree, names', item, fault, hparse, hitem, hspan, by decide +kernel, hread⟩
  · rw [hread] at hrejected
    cases hrejected

end LambdaScript
