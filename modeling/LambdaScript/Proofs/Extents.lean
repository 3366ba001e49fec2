import LambdaScript.Proofs.Brackets
import LambdaScript.Proofs.Enclosure
import LambdaScript.Proofs.Joining
import LambdaScript.Proofs.Partition
/-!
# Where the nodes of a program stand

The span of a node runs from its first piece to its last one (`Grammar.Made.span_eq`). An expression
in brackets has the span that it has inside of them; so the span of a node leaves out the brackets
around its first and around its last piece, and covers all other tokens (`Grammar.Core`).

The pieces of a node stand one behind the other, because their tokens do. So the span of every node
of a program begins where a token begins and ends where a token ends, and the spans of its children
lie inside it, one behind the other (`spans_nested`).
-/

namespace LambdaScript

/-! ## Spans in order -/

/-- Spans that hold some bytes, one behind the other. -/
structure InOrder (spans : List Span) : Prop where
  nonempty : ∀ s ∈ spans, s.start < s.stop
  pairwise : spans.Pairwise fun s t => s.stop ≤ t.start

namespace InOrder

variable {s t : Span} {spans others : List Span}

theorem sublist (h : InOrder spans) (hsub : others.Sublist spans) : InOrder others :=
  ⟨fun s hs => h.nonempty s (hsub.subset hs), h.pairwise.sublist hsub⟩

/-- The first one begins before all others. -/
theorem head_le (h : InOrder spans) (hs : spans.head? = some s) (ht : t ∈ spans) :
    s.start ≤ t.start := by
  obtain ⟨rest, rfl⟩ := List.head?_eq_some_iff.mp hs
  rcases List.mem_cons.mp ht with rfl | ht
  · exact Nat.le_refl _
  · have hs := h.nonempty s List.mem_cons_self
    have hst := List.rel_of_pairwise_cons h.pairwise ht
    omega

/-- The last one ends behind all others. -/
theorem le_last (h : InOrder spans) (hs : spans.getLast? = some s) (ht : t ∈ spans) :
    t.stop ≤ s.stop := by
  obtain ⟨before, rfl⟩ := List.getLast?_eq_some_iff.mp hs
  have hmem : s ∈ before ++ [s] := List.mem_append_right _ (List.mem_singleton.mpr rfl)
  rcases List.mem_append.mp ht with hbefore | hlast
  · have hs := h.nonempty s hmem
    have hts := (List.pairwise_append.mp h.pairwise).2.2 t hbefore s (List.mem_singleton.mpr rfl)
    omega
  · exact Nat.le_of_eq (congrArg Span.stop (List.mem_singleton.mp hlast))

/-- From the first one to the last one. -/
theorem merge_eq (h : InOrder spans) (hs : spans.head? = some s) (ht : spans.getLast? = some t) :
    s.merge t = ⟨s.start, t.stop⟩ := by
  have hstart := h.head_le hs (List.mem_of_getLast? ht)
  have hstop := h.le_last ht (List.mem_of_head? hs)
  rw [Span.merge, Nat.min_eq_left hstart, Nat.max_eq_right hstop]

end InOrder

/-! ## Nodes -/

namespace Expr

variable {ι : Type}

/-- The expressions that a node is made of, in the order of the text. -/
def children : Expr ι → List (Expr ι)
  | lambda _ _ _ body => [body]
  | e => e.parts

/-- The expression itself, or a node of one of its children. -/
inductive Node : Expr ι → Expr ι → Prop
  | root (e) : Node e e
  | inside {e child n} (hchild : child ∈ e.children) (h : Node child n) : Node e n

end Expr

/-- A span that begins where one of the tokens begins, and ends where one of them ends. -/
structure Marks (tokens : List Token) (s : Span) : Prop where
  nonempty : s.start < s.stop
  starts : ∃ t ∈ tokens, t.span.start = s.start
  stops : ∃ t ∈ tokens, t.span.stop = s.stop

theorem Marks.mono {tokens others : List Token} {s : Span} (h : Marks tokens s)
    (hsub : tokens ⊆ others) : Marks others s where
  nonempty := h.nonempty
  starts := h.starts.imp fun _ ht => ⟨hsub ht.1, ht.2⟩
  stops := h.stops.imp fun _ ht => ⟨hsub ht.1, ht.2⟩

/-- How a node stands among the tokens of its source: its children are inside of it, one behind the
other. A leaf is a token of its own, or the `false` of an empty block. -/
structure WellPlaced (tokens : List Token) (e : Tree) : Prop extends Marks tokens e.span where
  inside : ∀ child ∈ e.children,
    e.span.start ≤ child.span.start ∧ child.span.stop ≤ e.span.stop
  increasing : e.children.Pairwise fun child other => child.span.stop ≤ other.span.start
  leaf : e.children = [] →
    (∃ t ∈ tokens, Grammar.Begins t [] (.value e) ∧ e.span = t.span) ∨
      ∃ start stop, [⟨.punct .openBrace, start⟩, ⟨.punct .closeBrace, stop⟩] <:+: tokens ∧
        e = .bool ⟨start.start, stop.stop⟩ false

namespace WellPlaced

variable {tokens others : List Token} {e : Tree} {s t : Span} {spans : List Span}

theorem mono (h : WellPlaced tokens e) (hsub : tokens <:+: others) : WellPlaced others e where
  toMarks := h.toMarks.mono hsub.subset
  inside := h.inside
  increasing := h.increasing
  leaf hleaf := by
    rcases h.leaf hleaf with ⟨t, ht, hown⟩ | ⟨start, stop, hbraces, he⟩
    · exact .inl ⟨t, hsub.subset ht, hown⟩
    · exact .inr ⟨start, stop, hbraces.trans hsub, he⟩

/-- A node from the first to the last of some spans in order, among which those of its children
are. -/
theorem of_inOrder (h : InOrder spans) (hmarks : ∀ s ∈ spans, Marks tokens s)
    (hs : spans.head? = some s) (ht : spans.getLast? = some t) (hspan : e.span = s.merge t)
    (hchildren : (e.children.map Expr.span).Sublist spans)
    (hleaf : e.children = [] →
      (∃ t ∈ tokens, Grammar.Begins t [] (.value e) ∧ e.span = t.span) ∨
        ∃ start stop, [⟨.punct .openBrace, start⟩, ⟨.punct .closeBrace, stop⟩] <:+: tokens ∧
          e = .bool ⟨start.start, stop.stop⟩ false) : WellPlaced tokens e := by
  have hfirst := List.mem_of_head? hs
  have hlast := List.mem_of_getLast? ht
  rw [h.merge_eq hs ht] at hspan
  refine ⟨⟨?_, ?_, ?_⟩, fun child hchild => ?_, ?_, hleaf⟩
  · rw [hspan]
    have hpos := h.nonempty s hfirst
    have hstop := h.le_last ht hfirst
    show s.start < t.stop
    omega
  · rw [hspan]
    exact (hmarks s hfirst).starts
  · rw [hspan]
    exact (hmarks t hlast).stops
  · have hmem := hchildren.subset (List.mem_map_of_mem hchild)
    have hstart : s.start ≤ child.span.start := h.head_le hs hmem
    have hstop : child.span.stop ≤ t.stop := h.le_last ht hmem
    rw [hspan]
    exact ⟨hstart, hstop⟩
  · exact List.pairwise_map.mp (h.sublist hchildren).pairwise

end WellPlaced

namespace Grammar

variable {names : Interner} {ps : List Piece} {ts us : List Token} {before items : List Tree}
  {separator : Punct} {frame : Frame} {e n value whole : Tree}

theorem Row.trees_eq (h : Row separator before ps) : trees ps = before.reverse := by
  induction h with
  | nil => rfl
  | item h ih | separated span h ih => simp [ih]

theorem ThenWord.trees_eq (h : ThenWord ps) : trees ps = [] := by
  cases h <;> rfl

/-- The target of an assignment is a part of it, and no child. -/
theorem children_of_join {c : Connective} {left : Tree} (h : join c left value = .ok whole) :
    whole.children.Sublist [left, value] ∧ whole.span = left.span.merge value.span := by
  cases c with
  | binary op =>
    cases h
    exact ⟨.refl _, rfl⟩
  | assignment =>
    cases left with
    | var span target =>
      cases h
      exact ⟨List.sublist_cons_self _ _, rfl⟩
    | _ => contradiction

/-- The children of a node are parts of it. -/
theorem Made.children_sublist (h : Made names e ps) : e.children.Sublist (trees ps) := by
  cases h with
  | leaf h => cases h <;> exact .refl _
  | emptyBlock => exact .refl _
  | seq stop h =>
    cases h with
    | block start hrow => simp [hrow.trees_eq, Expr.children, Expr.parts]
  | call stop h =>
    cases h with
    | args start hrow => simp [hrow.trees_eq, Expr.children, Expr.parts]
  | wrap h hwraps =>
    cases hwraps with
    | operand hjoin =>
      cases h
      exact (children_of_join hjoin).1
    | thenBranch =>
      cases h with
      | thenBranch start hthen => simp [hthen.trees_eq, Expr.children, Expr.parts]
    | elseBranch =>
      cases h with
      | elseBranch start span hthen => simp [hthen.trees_eq, Expr.children, Expr.parts]
    | loopBody =>
      cases h with
      | loopBody start hthen => simp [hthen.trees_eq, Expr.children, Expr.parts]
    | lambdaBody => simp [Expr.children]

/-- The first piece of an open construct, and the span of what it comes to. -/
theorem Framed.exists_first (h : Framed names frame ps) (hwraps : Wraps frame value whole) :
    ∃ first rest, ps = first :: rest ∧ whole.span = first.span.merge value.span := by
  cases hwraps with
  | operand hjoin =>
    cases h
    exact ⟨_, _, rfl, (children_of_join hjoin).2⟩
  | lambdaBody start params value =>
    generalize hparams : params = list at h
    cases h
    exact ⟨_, _, rfl, rfl⟩
  | _ =>
    cases h
    exact ⟨_, _, rfl, rfl⟩

/-! ## The pieces of a node -/

theorem tokens_infix_flat {p : Piece} (hp : p ∈ ps) : p.tokens <:+: flat ps := by
  obtain ⟨before, after, rfl⟩ := List.append_of_mem hp
  rw [flat_append]
  exact ⟨flat before, flat after, by simp [flat]⟩

theorem exists_part (h : e ∈ trees ps) : ∃ ts, .part ts e ∈ ps := by
  obtain ⟨p, hp, hpe⟩ := List.mem_filterMap.mp h
  cases p with
  | token t => contradiction
  | part ts tree =>
    cases hpe
    exact ⟨ts, hp⟩

theorem spans_trees_sublist (ps : List Piece) :
    ((trees ps).map Expr.span).Sublist (ps.map Piece.span) := by
  induction ps with
  | nil => exact .slnil
  | cons p ps ih =>
    cases p with
    | token t => exact ih.cons _
    | part ts e => exact ih.cons_cons _

/-- The pieces are in order because their tokens are. -/
theorem inOrder_pieces (h : InOrder ((flat ps).map Token.span))
    (hmarks : ∀ p ∈ ps, Marks p.tokens p.span) : InOrder (ps.map Piece.span) := by
  refine ⟨fun s hs => ?_, ?_⟩
  · obtain ⟨p, hp, rfl⟩ := List.mem_map.mp hs
    exact (hmarks p hp).nonempty
  induction ps with
  | nil => exact .nil
  | cons p ps ih =>
    obtain ⟨hp, hps⟩ := List.forall_mem_cons.mp hmarks
    have hflat : flat (p :: ps) = p.tokens ++ flat ps := List.flatMap_cons
    rw [hflat, List.map_append] at h
    obtain ⟨-, hrest, hbetween⟩ := List.pairwise_append.mp h.pairwise
    refine .cons (fun s hs => ?_) (ih (h.sublist (List.sublist_append_right _ _)) hps)
    -- the span of a piece lies between tokens of the piece, the other one after all of those
    obtain ⟨q, hq, rfl⟩ := List.mem_map.mp hs
    obtain ⟨t, ht, hstop⟩ := hp.stops
    obtain ⟨u, hu, hstart⟩ := (hps q hq).starts
    rw [← hstop, ← hstart]
    have hu' := (tokens_infix_flat hq).subset hu
    exact hbetween _ (List.mem_map_of_mem ht) _ (List.mem_map_of_mem hu')

theorem getLast?_spans (ps : List Piece) (p : Piece) :
    ((ps ++ [p]).map Piece.span).getLast? = some p.span := by
  rw [List.map_append, List.map_singleton, List.getLast?_concat]

/-- A node stands from its first piece to its last one. -/
theorem Made.span_eq (h : Made names e ps) (horder : InOrder (ps.map Piece.span)) :
    ∃ s t, (ps.map Piece.span).head? = some s ∧ (ps.map Piece.span).getLast? = some t ∧
      e.span = s.merge t := by
  cases h with
  | @leaf t e h =>
    have hspan : e.span = t.span := by cases h <;> rfl
    exact ⟨_, _, rfl, rfl, by simp [Span.merge, Piece.span, hspan]⟩
  | wrap h hwraps =>
    obtain ⟨first, rest, rfl, hspan⟩ := h.exists_first hwraps
    exact ⟨_, _, rfl, getLast?_spans _ _, hspan⟩
  | emptyBlock start stop => exact ⟨_, _, rfl, rfl, rfl⟩
  | seq stop h =>
    cases h with
    | block start hrow => exact ⟨_, _, rfl, getLast?_spans _ _, rfl⟩
  | @call callee start before ps stop h =>
    cases h with
    | @args _ ts _ ps _ hrow =>
      have hlast := getLast?_spans (.part ts callee :: .token ⟨.punct .openParen, start⟩ :: ps)
        (.token ⟨.punct .closeParen, stop⟩)
      refine ⟨callee.span, stop, rfl, hlast, ?_⟩
      -- the bracket in front of the arguments is in between
      have hmem : start ∈ List.map Piece.span
          (.part ts callee :: .token ⟨.punct .openParen, start⟩ :: ps ++
            [.token ⟨.punct .closeParen, stop⟩]) := .tail _ (.head _)
      have hstart : callee.span.start ≤ start.start := horder.head_le rfl hmem
      have hstop : start.stop ≤ stop.stop := horder.le_last hlast hmem
      have hpos := horder.nonempty start hmem
      show Span.mk _ _ = Span.mk _ _
      simp only [Span.mk.injEq, Span.merge]
      omega

/-- The last part of a construct is a child of what it comes to. -/
theorem Wraps.mem_children (h : Wraps frame value whole) : value ∈ whole.children := by
  cases h with
  | @operand c left _ _ hjoin =>
    cases c with
    | binary op =>
      cases hjoin
      simp [Expr.children, Expr.parts]
    | assignment =>
      cases left with
      | var =>
        cases hjoin
        simp [Expr.children, Expr.parts]
      | _ => contradiction
  | _ => simp [Expr.children, Expr.parts]

/-- A node without children was read from a token of its own, or from a pair of braces. -/
theorem Made.leaf_cases (h : Made names e ps) (hleaf : e.children = []) :
    (∃ t, flat ps = [t] ∧ Begins t [] (.value e)) ∨
      ∃ start stop, flat ps = [⟨.punct .openBrace, start⟩, ⟨.punct .closeBrace, stop⟩] ∧
        e = .bool (start.merge stop) false := by
  cases h with
  | leaf h => exact .inl ⟨_, rfl, h⟩
  | emptyBlock start stop => exact .inr ⟨start, stop, rfl, rfl⟩
  | wrap _ hwraps => exact absurd hleaf (List.ne_nil_of_mem hwraps.mem_children)
  | seq stop h hmany =>
    rw [List.reverse_eq_nil_iff.mp hleaf] at hmany
    contradiction
  | call => cases hleaf

/-- A node is made of a single token, or of a first and a last piece and those in between. -/
theorem Made.ends (h : Made names e ps) :
    (∃ t, ps = [.token t]) ∨ ∃ first mid last, ps = first :: (mid ++ [last]) := by
  cases h with
  | leaf h => exact .inl ⟨_, rfl⟩
  | wrap h hwraps =>
    obtain ⟨first, rest, rfl, -⟩ := h.exists_first hwraps
    exact .inr ⟨first, rest, _, rfl⟩
  | emptyBlock start stop => exact .inr ⟨_, [], _, rfl⟩
  | seq stop h =>
    cases h with
    | block start hrow => exact .inr ⟨_, _, _, rfl⟩
  | call stop h =>
    cases h with
    | args start hrow => exact .inr ⟨_, _ :: _, _, rfl⟩

/-! ## Brackets around an expression -/

/-- The tokens `core` are those from the first to the last of which the span runs. In front of them
and behind them there are only brackets that leave no node. -/
structure Core (ts opens core closes : List Token) (s : Span) : Prop where
  eq : ts = opens ++ (core ++ closes)
  starts : ∃ t, core.head? = some t ∧ t.span.start = s.start
  stops : ∃ t, core.getLast? = some t ∧ t.span.stop = s.stop
  front : opens = [] ∨ 0 < level opens
  back : closes = [] ∨ level closes < 0

theorem Dropped.level_eq {t : Token} {closing : List Token} (h : Dropped t closing) :
    t.level = 1 ∧ level closing = -1 := by
  cases h <;> exact ⟨rfl, rfl⟩

namespace Core

variable {opens core closes : List Token} {s : Span}

theorem within (h : Core ts opens core closes s) : core <:+: ts :=
  ⟨opens, closes, by rw [h.eq, List.append_assoc]⟩

theorem marks (h : Core ts opens core closes s) (horder : InOrder (ts.map Token.span)) :
    Marks ts s := by
  have hcore := horder.sublist (h.within.sublist.map _)
  obtain ⟨first, hfirst, hstart⟩ := h.starts
  obtain ⟨last, hlast, hstop⟩ := h.stops
  have hmem := List.mem_of_getLast? hlast
  have hpos := hcore.nonempty last.span (List.mem_map_of_mem hmem)
  have hle : first.span.start ≤ last.span.start :=
    hcore.head_le (by rw [List.head?_map, hfirst]; rfl) (List.mem_map_of_mem hmem)
  refine ⟨by omega, ⟨first, ?_, hstart⟩, ⟨last, h.within.subset hmem, hstop⟩⟩
  exact h.within.subset (List.mem_of_head? hfirst)

theorem token (t : Token) : Core [t] [] [t] [] t.span where
  eq := rfl
  starts := ⟨t, rfl, rfl⟩
  stops := ⟨t, rfl, rfl⟩
  front := .inl rfl
  back := .inl rfl

/-- In a pair of brackets that leaves no node. -/
theorem dropped {t : Token} {closing : List Token} (h : Core ts opens core closes s)
    (hdropped : Dropped t closing) :
    Core (t :: (ts ++ closing)) (t :: opens) core (closes ++ closing) s where
  eq := by rw [h.eq]; simp
  starts := h.starts
  stops := h.stops
  front := by
    rw [level_cons, hdropped.level_eq.1]
    rcases h.front with rfl | hfront
    · exact .inr Int.one_pos
    · exact .inr (by omega)
  back := by
    rw [level_append, hdropped.level_eq.2]
    rcases h.back with rfl | hback
    · exact .inr (by decide)
    · exact .inr (by omega)

end Core

section
variable (horder : InOrder ((flat ps).map Token.span))
  (hcores : ∀ us part, .part us part ∈ ps → ∃ opens core closes,
    Core us opens core closes part.span)
include hcores

theorem exists_core_piece (hbalanced : BalancedParts ps) {p : Piece} (hp : p ∈ ps) :
    ∃ opens core closes, Core p.tokens opens core closes p.span ∧
      (opens = [] ∨ level p.tokens = 0) := by
  cases p with
  | token t => exact ⟨[], [t], [], .token t, .inl rfl⟩
  | part us part =>
    obtain ⟨opens, core, closes, hcore⟩ := hcores us part hp
    exact ⟨opens, core, closes, hcore, .inr (hbalanced us part hp).closed⟩

include horder

theorem inOrder_spans (hbalanced : BalancedParts ps) : InOrder (ps.map Piece.span) := by
  refine inOrder_pieces horder fun p hp => ?_
  obtain ⟨opens, core, closes, hcore, -⟩ := exists_core_piece hcores hbalanced hp
  exact hcore.marks (horder.sublist ((tokens_infix_flat hp).sublist.map _))

/-- The span of a node covers its tokens, up to brackets around its first and its last piece. It
covers all of them if the tokens that it covers are balanced. -/
theorem Made.exists_core (h : Made names e ps) (hbalanced : BalancedParts ps) :
    ∃ opens core closes, Core (flat ps) opens core closes e.span ∧
      (Balanced core → core = flat ps) := by
  have hpieces := inOrder_spans horder hcores hbalanced
  obtain ⟨s, t, hs, ht, hspan⟩ := h.span_eq hpieces
  rw [hpieces.merge_eq hs ht] at hspan
  rcases h.ends with ⟨t, rfl⟩ | ⟨first, mid, last, rfl⟩
  · cases hs
    cases ht
    rw [hspan]
    exact ⟨[], [t], [], .token t, fun _ => rfl⟩
  obtain rfl : first.span = s := Option.some.inj hs
  obtain rfl : last.span = t := Option.some.inj ((getLast?_spans (first :: mid) last).symm.trans ht)
  obtain ⟨opens, front, closing, hfirst, hlevel⟩ :=
    exists_core_piece hcores hbalanced (p := first) (.head _)
  obtain ⟨opening, back, closes, hlast, -⟩ :=
    exists_core_piece hcores hbalanced (p := last) (by simp)
  have hflat : flat (first :: (mid ++ [last])) =
      opens ++ ((front ++ closing) ++ (flat mid ++ (opening ++ back))) ++ closes := by
    have hpieces : flat (first :: (mid ++ [last])) = first.tokens ++ (flat mid ++ last.tokens) := by
      simp [flat]
    rw [hpieces, hfirst.eq, hlast.eq]
    simp only [List.append_assoc]
  refine ⟨opens, front ++ closing ++ (flat mid ++ (opening ++ back)), closes,
    ⟨by rw [hflat, List.append_assoc], ?_, ?_, hfirst.front, hlast.back⟩, fun hcore => ?_⟩
  · obtain ⟨t, ht, hstart⟩ := hfirst.starts
    exact ⟨t, by simp [List.head?_append, ht], by rw [hstart, hspan]⟩
  · obtain ⟨t, ht, hstop⟩ := hlast.stops
    exact ⟨t, by simp [List.getLast?_append, ht], by rw [hstop, hspan]⟩
  · -- what closes the brackets in front of the first piece is part of the piece
    have hopens : opens = [] := by
      rcases hlevel with hopens | hlevel
      · exact hopens
      rcases hfirst.front with hopens | hfront
      · exact hopens
      have hopened := hcore.opened (front ++ closing) (List.prefix_append _ _)
      rw [hfirst.eq, level_append] at hlevel
      omega
    have hwhole := (h.balanced hbalanced).closed
    rw [hflat, level_append, hopens, List.nil_append, hcore.closed] at hwhole
    have hcloses : closes = [] := hlast.back.resolve_right (by omega)
    rw [hflat, hopens, hcloses, List.nil_append, List.append_nil]

end

/-- The same for an expression in brackets. -/
theorem Passage.exists_core (h : Passage names ts e) (horder : InOrder (ts.map Token.span)) :
    ∃ opens core closes, Core ts opens core closes e.span := by
  induction h with
  | @node e ps hmade hparts _ ih =>
    have hcores : ∀ us part, .part us part ∈ ps → ∃ opens core closes,
        Core us opens core closes part.span := fun us part hmem =>
      ih us part hmem (horder.sublist ((tokens_infix_flat hmem).sublist.map _))
    obtain ⟨opens, core, closes, hcore, -⟩ := hmade.exists_core horder hcores
      fun us part hmem => (hparts us part hmem).balanced
    exact ⟨opens, core, closes, hcore⟩
  | @dropped t ts closing e h hdropped ih =>
    have hwithin : ts <:+: t :: (ts ++ closing) := ⟨[t], closing, by simp⟩
    obtain ⟨opens, core, closes, hcore⟩ := ih (horder.sublist (hwithin.sublist.map _))
    exact ⟨_, _, _, hcore.dropped hdropped⟩

/-! ## All nodes -/

/-- Every node below an expression was made of pieces, whose tokens are among those of the
expression and are a program when they are read alone. -/
theorem Passage.exists_made (h : Passage names ts e) (hn : e.Node n) :
    ∃ ps, Made names n ps ∧ Parts names ps ∧ Alone names (flat ps) n ∧ flat ps <:+: ts := by
  induction h with
  | @node e ps hmade hparts halone ih =>
    cases hn with
    | root => exact ⟨ps, hmade, hparts, halone, List.infix_refl _⟩
    | inside hchild hn =>
      obtain ⟨us, hmem⟩ := exists_part (hmade.children_sublist.subset hchild)
      obtain ⟨qs, hqs, hparts, halone, hwithin⟩ := ih us _ hmem hn
      exact ⟨qs, hqs, hparts, halone, hwithin.trans (tokens_infix_flat hmem)⟩
  | @dropped t ts closing e h _ ih =>
    obtain ⟨qs, hqs, hparts, halone, hwithin⟩ := ih hn
    exact ⟨qs, hqs, hparts, halone, hwithin.trans ⟨[t], closing, by simp⟩⟩

section
variable (hparts : Parts names ps) (horder : InOrder ((flat ps).map Token.span))
include hparts

theorem Parts.balanced : BalancedParts ps := fun us part hmem => (hparts us part hmem).balanced

include horder

theorem Parts.exists_core : ∀ us part, .part us part ∈ ps → ∃ opens core closes,
    Core us opens core closes part.span := fun us part hmem =>
  (hparts us part hmem).exists_core (horder.sublist ((tokens_infix_flat hmem).sublist.map _))

theorem Parts.inOrder : InOrder (ps.map Piece.span) :=
  inOrder_spans horder (hparts.exists_core horder) hparts.balanced

theorem Parts.marks : ∀ p ∈ ps, Marks (flat ps) p.span := by
  intro p hp
  obtain ⟨_, _, _, hcore, -⟩ :=
    exists_core_piece (hparts.exists_core horder) hparts.balanced hp
  have hwithin := tokens_infix_flat hp
  exact (hcore.marks (horder.sublist (hwithin.sublist.map _))).mono hwithin.subset

theorem Made.wellPlaced (h : Made names e ps) : WellPlaced (flat ps) e := by
  have hpieces := hparts.inOrder horder
  obtain ⟨s, t, hs, ht, hspan⟩ := h.span_eq hpieces
  refine .of_inOrder hpieces ?_ hs ht hspan ?_ fun hleaf => ?_
  · intro s hs
    obtain ⟨p, hp, rfl⟩ := List.mem_map.mp hs
    exact hparts.marks horder p hp
  · exact (h.children_sublist.map _).trans (spans_trees_sublist ps)
  · rcases h.leaf_cases hleaf with ⟨t, hflat, hbegins⟩ | ⟨start, stop, hflat, rfl⟩
    · have hspan : e.span = t.span := by cases hbegins <;> rfl
      exact .inl ⟨t, by rw [hflat]; exact .head _, hbegins, hspan⟩
    · rw [hflat] at horder ⊢
      have hmerge : start.merge stop = ⟨start.start, stop.stop⟩ := horder.merge_eq rfl rfl
      exact .inr ⟨start, stop, List.infix_refl _, by rw [hmerge]⟩

end

/-- The node below the items of a program, and the program around them. -/
theorem Row.wellPlaced (hrow : Row .semicolon items.reverse ps) (hparts : Parts names ps)
    (horder : InOrder ((flat ps).map Token.span)) (hitems : items ≠ []) :
    ∀ n, (Expr.seq (programSpan items) items).Node n → WellPlaced (flat ps) n := by
  have htrees : trees ps = items := by rw [hrow.trees_eq, List.reverse_reverse]
  intro n hn
  cases hn with
  | inside hchild hn =>
    obtain ⟨us, hmem⟩ := exists_part (htrees ▸ hchild)
    obtain ⟨qs, hmade, hqs, -, hwithin⟩ := (hparts us _ hmem).exists_made hn
    have hwithin := hwithin.trans (tokens_infix_flat hmem)
    exact (hmade.wellPlaced hqs (horder.sublist (hwithin.sublist.map _))).mono hwithin
  | root =>
    have hspans : InOrder (items.map Expr.span) := by
      rw [← htrees]
      exact (hparts.inOrder horder).sublist (spans_trees_sublist ps)
    have hfirst := List.head?_eq_some_head hitems
    have hlast := List.getLast?_eq_some_getLast hitems
    refine .of_inOrder hspans ?_ (by rw [List.head?_map, hfirst]; rfl)
      (by rw [List.getLast?_map, hlast]; rfl) ?_ (List.Sublist.refl _)
      fun hleaf => absurd hleaf hitems
    · intro s hs
      obtain ⟨item, hmem, rfl⟩ := List.mem_map.mp hs
      obtain ⟨us, hmem⟩ := exists_part (htrees ▸ hmem)
      exact hparts.marks horder _ hmem
    · show programSpan items = _
      rw [programSpan, hfirst, hlast]

end Grammar

/-- What a program was read from: passages of the tokens that its source is cut into. -/
theorem exists_row_of_parseSource {source : String} {names names' : Interner} {tree : Tree}
    (hnames : names.Made) (hsize : byteCount source.toList < maxOffset)
    (hparse : parseSource source names = (.ok tree, names')) :
    ∃ items ps, tree = .seq (Grammar.programSpan items) items ∧
      Grammar.Row .semicolon items.reverse ps ∧ Grammar.Parts names' ps ∧
      lex source names = (.ok (Grammar.flat ps), names') ∧
      InOrder ((Grammar.flat ps).map Token.span) ∧
      Partition names' 0 source.toList (Grammar.flat ps) := by
  obtain ⟨hlater, offset, hending, hrun⟩ :=
    run_of_parseSource hnames.consistent hparse (.refl names')
  obtain ⟨items, ps, htree, hrow, hparts, htokens⟩ := Grammar.row_of_run_ok hrun
  have hlex : lex source names = (.ok (Grammar.flat ps), names') := by
    refine lex_eq_ok_iff.mpr ⟨offset, ?_⟩
    rw [← htokens, ← hending, hlater]
  obtain ⟨hpartition, -, hpairwise, hfound⟩ := partition_lex hnames hsize hlex
  refine ⟨items, ps, htree, hrow, hparts, hlex, ⟨fun s hs => ?_, ?_⟩, hpartition⟩
  · obtain ⟨t, ht, rfl⟩ := List.mem_map.mp hs
    exact (hfound t ht).1
  · exact List.pairwise_map.mpr hpairwise

/-- The nodes of a program are nested, and stand where its tokens stand: the span of each one begins
where a token begins and ends where a token ends, the spans of its children lie inside of it one
behind the other, and a leaf is a token of its own or the `false` of an empty block. Only a program
without expressions has no token. -/
theorem spans_nested {source : String} {names names' : Interner} {tree : Tree}
    (hnames : names.Made) (hsize : byteCount source.toList < maxOffset)
    (hparse : parseSource source names = (.ok tree, names')) :
    ∃ tokens, lex source names = (.ok tokens, names') ∧
      ((tokens = [] ∧ tree = .seq (.point 0) []) ∨ ∀ e, tree.Node e → WellPlaced tokens e) := by
  obtain ⟨items, ps, rfl, hrow, hparts, hlex, horder, -⟩ :=
    exists_row_of_parseSource hnames hsize hparse
  refine ⟨_, hlex, ?_⟩
  by_cases hitems : items = []
  · subst hitems
    cases hrow
    exact .inl ⟨rfl, rfl⟩
  · exact .inr (hrow.wellPlaced hparts horder hitems)

/-- Brackets and braces that leave no node, an empty block, and a call behind all of them. -/
theorem spans_nested_emptyBlock : ∃ tree names' tokens,
    parseSource "f = (lambda (x) if (x) \x7b\x7d else \x7b(x) + 1;\x7d)(2);" .fresh =
        (.ok tree, names') ∧
      lex "f = (lambda (x) if (x) \x7b\x7d else \x7b(x) + 1;\x7d)(2);" .fresh =
        (.ok tokens, names') ∧
      tree.nodes = [(.seq, ⟨0, 45⟩), (.assign, ⟨0, 45⟩), (.call, ⟨5, 45⟩), (.lambda, ⟨5, 39⟩),
        (.conditional, ⟨16, 39⟩), (.var, ⟨20, 21⟩), (.bool, ⟨23, 25⟩), (.binary, ⟨33, 39⟩),
        (.var, ⟨33, 34⟩), (.number, ⟨38, 39⟩), (.number, ⟨43, 44⟩)] ∧
      ((tokens = [] ∧ tree = .seq (.point 0) []) ∨ ∀ e, tree.Node e → WellPlaced tokens e) := by
  obtain ⟨tree, names', hparse⟩ : ∃ tree names',
      parseSource "f = (lambda (x) if (x) \x7b\x7d else \x7b(x) + 1;\x7d)(2);" .fresh =
        (.ok tree, names') :=
    exists_eq_ok (by decide +kernel)
  have hnodes : ((parseSource "f = (lambda (x) if (x) \x7b\x7d else \x7b(x) + 1;\x7d)(2);"
      .fresh).1.toOption.map Expr.nodes) = some [(.seq, ⟨0, 45⟩), (.assign, ⟨0, 45⟩),
        (.call, ⟨5, 45⟩), (.lambda, ⟨5, 39⟩), (.conditional, ⟨16, 39⟩), (.var, ⟨20, 21⟩),
        (.bool, ⟨23, 25⟩), (.binary, ⟨33, 39⟩), (.var, ⟨33, 34⟩), (.number, ⟨38, 39⟩),
        (.number, ⟨43, 44⟩)] := by
    decide +kernel
  rw [hparse] at hnodes
  obtain ⟨tokens, hlex, hnested⟩ := spans_nested .fresh (by decide +kernel) hparse
  exact ⟨tree, names', tokens, hparse, hlex, Option.some.inj hnodes, hnested⟩

end LambdaScript
