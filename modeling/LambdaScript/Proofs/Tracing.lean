import LambdaScript.Proofs.NodeTokens
import LambdaScript.Proofs.Viability
/-!
# Reading a program passage by passage

After some tokens, the machine has read the passages of the expressions that are complete, then the
pieces of the constructs that are open, and then what there is of the innermost one (`Traced`). One
more token leads to the same again (`traced_feed`), so that the items of a program were read from
passages, one after the other, with semicolons between them (`row_of_run_ok`).

The tokens of an open construct lead into it whatever is open around it, if what comes next is what
came next (`Stacked.cons`): without `then`, a branch is entered at its brace alone.
-/

namespace LambdaScript

namespace Grammar

/-! ## What has been read -/

/-- `rest` begins as `tail` does, if `tail` has begun. -/
def Follows (tail rest : List Token) : Prop := ∀ t, tail.head? = some t → rest.head? = some t

/-- The tokens of the open constructs, in front of `tail`. -/
inductive Stacked (names : Interner) : List Frame → List Token → List Token → Prop
  | nil {tail} : Stacked names [] [] tail
  | cons {stack us frame ps tail} (h : Stacked names stack us (flat ps))
      (hframed : Framed names frame ps) (hparts : Parts names ps)
      (hleads : ∀ rest, Follows tail rest →
        Leads names (bound stack) (flat ps) [frame] frame.place rest) :
      Stacked names (frame :: stack) (us ++ flat ps) tail

/-- The tokens that have been read at a place of the innermost construct. -/
inductive Placed (names : Interner) (b : Nat) : Point → List Token → Prop
  | operand : Placed names b .operand []
  | item : Placed names b .item []
  | value {ts e} (h : Passage names ts e) (hleads : ∀ rest, Leads names b ts [] (.value e) rest) :
      Placed names b (.value e) ts
  | paramList (start : Span) : Placed names b (.paramList start) [⟨.keyword .lambdaWord, start⟩]
  | params {start before place ts} (h : Params before ts) (hplace : InParams start before place)
      (hleads : ∀ rest, Leads names b (⟨.keyword .lambdaWord, start⟩ :: ts) [] place rest) :
      Placed names b place (⟨.keyword .lambdaWord, start⟩ :: ts)

/-- All that the machine has read. -/
inductive Traced (names : Interner) : List Token → Config → Prop
  | mk {ps us tail items stack point} (hrow : Row .semicolon items ps) (hparts : Parts names ps)
      (hstack : Stacked names stack us tail) (hplace : Placed names (bound stack) point tail) :
      Traced names (flat ps ++ us ++ tail) ⟨items, stack, point⟩

variable {names : Interner} {b : Nat} {ts us tail rest : List Token} {ps : List Piece}
  {items items' before : List Tree} {stack stack' : List Frame} {frame : Frame}
  {place point : Point} {look : Option Token} {t : Token} {value whole e : Tree}
  {c c' : Config}

theorem traced_start : Traced names [] Config.start := .mk .nil parts_nil .nil .item

/-- What is known of open constructs stays known when more is read. -/
theorem Stacked.mono (h : Stacked names stack us tail) {tail' : List Token}
    (htail : Follows tail tail') : Stacked names stack us tail' := by
  cases h with
  | nil => exact .nil
  | cons h hframed hparts hleads =>
    refine .cons h hframed hparts fun rest hrest => hleads rest fun t ht => ?_
    exact hrest t (htail t ht)

theorem follows_nil (rest : List Token) : Follows [] rest := nofun

theorem follows_append (ts us : List Token) : Follows ts (ts ++ us) := by
  intro t ht
  rw [List.head?_append, ht]
  rfl

theorem follows_flat (ps qs : List Piece) : Follows (flat ps) (flat (ps ++ qs)) := by
  rw [flat_append]
  exact follows_append _ _

/-- One more construct is open. -/
theorem Stacked.push (h : Stacked names stack us tail) (htail : Follows tail (flat ps))
    (hframed : Framed names frame ps) (hparts : Parts names ps)
    (hleads : ∀ rest, Leads names (bound stack) (flat ps) [frame] frame.place rest) :
    Stacked names (frame :: stack) (us ++ flat ps) [] :=
  .cons (h.mono htail) hframed hparts fun rest _ => hleads rest

/-! ## Complete expressions -/

/-- An expression has been read, and the token `look` or the end of the source is next. -/
structure Pending (names : Interner) (b : Nat) (look : Option Token) (ts : List Token) (e : Tree) :
    Prop where
  passage : Passage names ts e
  leads : ∀ rest, rest.head? = look ∨ rest = [] → Leads names b ts [] (.value e) rest

theorem Pending.leads_token (h : Pending names b (some t) ts e) (rest : List Token) :
    Leads names b ts [] (.value e) (t :: rest) :=
  h.leads (t :: rest) (.inl rfl)

theorem settled_of_extend?_eq_none (h : extend? names items stack value look = none) :
    Settled names (bound stack) look := by
  rintro t rfl
  rw [extend?] at h
  split at h
  · contradiction
  · next hparen =>
    refine ⟨Bool.not_eq_true _ ▸ hparen, fun connective hconnective => ?_⟩
    rw [hconnective] at h
    dsimp only at h
    split at h
    · assumption
    · contradiction

/-- A node made of its pieces. -/
theorem passage_node (hmade : Made names e ps) (hparts : Parts names ps)
    (hleads : Leads names b (flat ps) [] (.value e) []) : Passage names (flat ps) e :=
  .node hmade hparts hleads.alone

/-- Inside of an open construct. -/
theorem Pending.inside (h : Pending names (bound (frame :: stack)) look ts value)
    (hleads : ∀ rest, Follows ts rest →
      Leads names (bound stack) (flat ps) [frame] frame.place rest)
    (hrest : rest.head? = look ∨ rest = []) :
    Leads names (bound stack) (flat (ps ++ [.part ts value])) [frame] (.value value) rest := by
  have hpart : Leads names (bound [frame]) ts [] (.value value) rest := by
    rw [← bound_cons frame stack]
    exact h.leads rest hrest
  have hflat : flat (ps ++ [.part ts value]) = flat ps ++ ts := by simp
  rw [hflat]
  exact (hleads (ts ++ rest) (follows_append ts rest)).inside hpart

/-- Inside of an open construct, and then a token that is not for the expression itself. -/
theorem Pending.leads_behind (opened : List Frame) (place : Point)
    (h : Pending names (bound (frame :: stack)) (some t) ts value)
    (hsettled : Settled names (bound (frame :: stack)) (some t))
    (hleads : ∀ rest, Follows ts rest →
      Leads names (bound stack) (flat ps) [frame] frame.place rest)
    (hcomplete : ∀ items base, complete names items (some t) (frame :: base) value =
      .ok ⟨items, opened ++ base, place⟩) (rest : List Token) :
    Leads names (bound stack) (flat (ps ++ [.part ts value, .token t])) opened place rest := by
  have hstep : Leads names (bound stack) (flat (ps ++ [.part ts value]) ++ [t]) opened place rest :=
    (h.inside hleads (.inl rfl)).step fun items base _ => by
      rw [bound_cons] at hsettled
      rw [List.singleton_append, feed_value_eq_complete (by rwa [bound_cons]), hcomplete]
  simpa using hstep

/-- With its last part a construct is complete, and what comes next is the same. -/
theorem Pending.wrap (h : Pending names (bound (frame :: stack)) look ts value)
    (hframed : Framed names frame ps) (hparts : Parts names ps)
    (hleads : ∀ rest, Follows ts rest →
      Leads names (bound stack) (flat ps) [frame] frame.place rest)
    (hwraps : Wraps frame value whole) (hsettled : Settled names (bound (frame :: stack)) look)
    (hlast : ∀ items base look', look' = look ∨ look' = none →
      complete names items look' (frame :: base) value =
        resume names items look' base whole) :
    Pending names (bound stack) look (flat (ps ++ [.part ts value])) whole := by
  have hwhole : ∀ rest, rest.head? = look ∨ rest = [] →
      Leads names (bound stack) (flat (ps ++ [.part ts value])) [] (.value whole) rest := by
    intro rest hrest
    have hlook : rest.head? = look ∨ rest.head? = none := hrest.imp id fun hnil => by rw [hnil]; rfl
    refine (h.inside hleads hrest).wrap ?_ fun items base => hlast items base _ hlook
    rw [bound_cons] at hsettled
    rcases hlook with hlook | hlook <;> rw [hlook]
    · exact hsettled
    · exact settled_none _
  exact ⟨passage_node (.wrap hframed hwraps) (hparts.append (.part h.passage))
    (hwhole [] (.inr rfl)), hwhole⟩

/-! ## Beginning an operand -/

theorem Traced.of_eq (h : Traced names ts c) (heq : ts = us) : Traced names us c := heq ▸ h

/-- A token with which an operand begins opens a construct, or is a value or the word `lambda`. -/
theorem Begins.framed {opened : List Frame} (names : Interner) (h : Begins t opened place) :
    (∃ frame, opened = [frame] ∧ place = frame.place ∧ Framed names frame [.token t]) ∨
      opened = [] ∧ ((∃ e, place = .value e) ∨
        ∃ start, t = ⟨.keyword .lambdaWord, start⟩ ∧ place = .paramList start) := by
  cases h with
  | paren span => exact .inl ⟨_, rfl, rfl, .paren span⟩
  | block span => exact .inl ⟨_, rfl, rfl, .block span .nil⟩
  | ifWord span => exact .inl ⟨_, rfl, rfl, .ifCondition span⟩
  | whileWord span => exact .inl ⟨_, rfl, rfl, .loopCondition span⟩
  | lambdaWord span => exact .inr ⟨rfl, .inr ⟨span, rfl, rfl⟩⟩
  | _ => exact .inr ⟨rfl, .inl ⟨_, rfl⟩⟩

theorem placed_of_frame (names : Interner) (b : Nat) (frame : Frame) :
    Placed names b frame.place [] := by
  cases frame with
  | block | args => exact .item
  | _ => exact .operand

theorem traced_begin (hrow : Row .semicolon items ps) (hparts : Parts names ps)
    (hstack : Stacked names stack us []) (h : begin items stack look = .ok c') :
    Traced names (flat ps ++ us ++ look.toList) c' := by
  obtain ⟨t, opened, place, rfl, hbegins, rfl⟩ := begins_of_begin h
  have hleads : ∀ rest, Leads names (bound stack) [t] opened place rest :=
    leads_begins hbegins (bound stack)
  rcases hbegins.framed names with ⟨frame, rfl, rfl, hframed⟩ | ⟨rfl, ⟨e, rfl⟩ | ⟨start, rfl, rfl⟩⟩
  · have hpush := hstack.push (follows_nil _) hframed (parts_token t) hleads
    exact (Traced.mk hrow hparts hpush (placed_of_frame names _ frame)).of_eq (by simp)
  · have hpassage : Passage names (flat [.token t]) e :=
      passage_node (.leaf hbegins) (parts_token t) (hleads [])
    exact .mk hrow hparts (hstack.mono (follows_nil _)) (.value hpassage hleads)
  · exact .mk hrow hparts (hstack.mono (follows_nil _)) (.paramList start)

/-! ## Lists -/

/-- A list: the frame that holds its items in reverse, its separator, what closes it, and the tree
that it comes to when it is closed by a token with some span. -/
inductive Listed : (List Tree → Frame) → Punct → Punct → (Span → List Tree → Tree) → Prop
  | block (start : Span) :
      Listed (.block start) .semicolon .closeBrace fun stop before =>
        blockTree (start.merge stop) before.reverse
  | args (callee : Tree) (start : Span) :
      Listed (.args callee start) .comma .closeParen fun stop before =>
        .call (callee.span.merge (start.merge stop)) callee before.reverse

namespace Listed

variable {f : List Tree → Frame} {separator closing : Punct} {tree : Span → List Tree → Tree}
  {stop : Span}

theorem close?_eq (h : Listed f separator closing tree) :
    close? items (f before :: stack) (some ⟨.punct closing, stop⟩) =
      some ⟨items, stack, .value (tree stop before)⟩ := by
  cases h <;> rfl

theorem eq_of_close? (h : Listed f separator closing tree)
    (hclose : close? items (f before :: stack) look = some c') :
    ∃ stop, look = some ⟨.punct closing, stop⟩ ∧
      c' = ⟨items, stack, .value (tree stop before)⟩ := by
  obtain ⟨place, hcloses, hc⟩ := closesList_of_close? hclose
  rw [hc]
  cases h with
  | block | args =>
    cases hcloses
    exact ⟨_, rfl, rfl⟩

theorem complete_eq (h : Listed f separator closing tree) :
    complete names items look (f before :: stack) value =
      behindItem items (f (value :: before) :: stack) separator look := by
  cases h <;> rfl

theorem close?_separator (h : Listed f separator closing tree) :
    close? items (f before :: stack) (some ⟨.punct separator, stop⟩) = none := by
  cases h <;> rfl

theorem place_eq (h : Listed f separator closing tree) : (f before).place = .item := by
  cases h <;> rfl

theorem framed_item (h : Listed f separator closing tree) (hframed : Framed names (f before) ps) :
    Framed names (f (e :: before)) (ps ++ [.part ts e]) := by
  cases h with
  | block start =>
    cases hframed with
    | block _ hrow => exact .block start hrow.item
  | args callee start =>
    cases hframed with
    | args _ hrow => exact .args start hrow.item

theorem framed_separated (h : Listed f separator closing tree)
    (hframed : Framed names (f before) ps) (span : Span) :
    Framed names (f (e :: before)) (ps ++ [.part ts e, .token ⟨.punct separator, span⟩]) := by
  cases h with
  | block start =>
    cases hframed with
    | block _ hrow => exact .block start (hrow.separated span)
  | args callee start =>
    cases hframed with
    | args _ hrow => exact .args start (hrow.separated span)

/-- A block is read from its braces and what is between them, whether it has a node or not. -/
theorem passage_block {start : Span} (hrow : Row .semicolon before ps) (hparts : Parts names ps)
    (hleads : Leads names b
      (flat (.token ⟨.punct .openBrace, start⟩ :: ps) ++ [⟨.punct .closeBrace, stop⟩]) []
      (.value (blockTree (start.merge stop) before.reverse)) []) :
    Passage names (flat (.token ⟨.punct .openBrace, start⟩ :: ps) ++ [⟨.punct .closeBrace, stop⟩])
      (blockTree (start.merge stop) before.reverse) := by
  have hflat : ∀ qs : List Piece, flat qs ++ [⟨.punct .closeBrace, stop⟩] =
      flat (qs ++ [.token ⟨.punct .closeBrace, stop⟩]) := by
    intro qs
    rw [flat_append]
    rfl
  match before, hrow with
  | [], .nil => exact passage_node (.emptyBlock start stop) (parts_tokens [_, _]) hleads
  | [e], @Row.item _ _ _ ts _ .nil =>
    have hpart : Passage names ts e := hparts ts e (by simp)
    show Passage names _ e
    simpa using hpart.dropped (.block start stop)
  | [e], @Row.separated _ _ _ ts _ span .nil =>
    have hpart : Passage names ts e := hparts ts e (by simp)
    show Passage names _ e
    simpa using hpart.dropped (.blockSeparated start span stop)
  | second :: first :: others, hrow =>
    have htree : blockTree (start.merge stop) (second :: first :: others).reverse =
        .seq (start.merge stop) (second :: first :: others).reverse := by
      have hlength : 2 ≤ (second :: first :: others).reverse.length := by simp
      match (second :: first :: others).reverse, hlength with
      | _ :: _ :: _, _ => rfl
    rw [htree, hflat] at hleads ⊢
    refine passage_node (.seq stop (.block start hrow) (by simp)) ?_ hleads
    exact ((parts_token _).append hparts).append (parts_token _)

theorem passage (h : Listed f separator closing tree) (hframed : Framed names (f before) ps)
    (hparts : Parts names ps)
    (hleads : Leads names b (flat ps ++ [⟨.punct closing, stop⟩]) [] (.value (tree stop before))
      []) :
    Passage names (flat ps ++ [⟨.punct closing, stop⟩]) (tree stop before) := by
  cases h with
  | block start =>
    cases hframed with
    | block _ hrow =>
      exact passage_block hrow (fun ts e hmem => hparts ts e (List.mem_cons_of_mem _ hmem)) hleads
  | args callee start =>
    have hflat : flat ps ++ [⟨.punct .closeParen, stop⟩] =
        flat (ps ++ [.token ⟨.punct .closeParen, stop⟩]) := by
      rw [flat_append]
      rfl
    rw [hflat] at hleads ⊢
    exact passage_node (.call stop hframed) (hparts.append (parts_token _)) hleads

/-- The list is closed. -/
theorem placed (h : Listed f separator closing tree) (hframed : Framed names (f before) ps)
    (hparts : Parts names ps)
    (hleads : ∀ rest, Leads names b (flat ps ++ [⟨.punct closing, stop⟩]) []
      (.value (tree stop before)) rest) :
    Placed names b (.value (tree stop before)) (flat ps ++ [⟨.punct closing, stop⟩]) :=
  .value (h.passage hframed hparts (hleads [])) hleads

end Listed

/-! ## Behind an expression -/

section
variable (hrow : Row .semicolon items ps) (hparts : Parts names ps)
  (hstack : Stacked names stack us ts) (h : Pending names (bound stack) look ts value)
include hrow hparts hstack h

/-- The expression becomes the callee of a call or the left operand of a connective. -/
theorem traced_extend (hextend : extend? names items stack value look = some c') :
    Traced names (flat ps ++ us ++ ts ++ look.toList) c' := by
  rcases look with _ | t
  · contradiction
  -- the step is the same whatever is open around, if nothing there binds tighter
  have hpush : ∀ frame : Frame, Framed names frame [.part ts value, .token t] →
      (∀ items base, bound base ≤ bound stack →
        Config.feed names ⟨items, base, .value value⟩ (some t) =
          .ok ⟨items, frame :: base, frame.place⟩) →
      Traced names (flat ps ++ us ++ ts ++ [t]) ⟨items, frame :: stack, frame.place⟩ := by
    intro frame hframed hfeed
    have hleads : ∀ rest, Leads names (bound stack) (flat [.part ts value, .token t]) [frame]
        frame.place rest :=
      fun rest => (h.leads_token rest).step fun items base hbound => hfeed items base hbound
    have hpush := hstack.push (by exact follows_append ts [t]) hframed (.part_token h.passage t)
      hleads
    exact (Traced.mk hrow hparts hpush (placed_of_frame names _ frame)).of_eq (by simp)
  rw [extend?] at hextend
  split at hextend
  · next hparen =>
    obtain ⟨kind, span⟩ := t
    cases Token.isPunct_iff.mp hparen
    cases hextend
    exact hpush (.args value span []) (.args span .nil) fun items base _ => rfl
  · next hparen =>
    split at hextend
    · next connective hconnective =>
      split at hextend
      · contradiction
      · next hbinds =>
        cases hextend
        refine hpush (.operand connective value) (.operand hconnective) fun items base hbound => ?_
        have hnot : ¬connective.precedence ≤ bound base := by omega
        rw [Bool.not_eq_true] at hparen
        simp only [Config.feed, resume, extendOr, extend?, hparen, hconnective, if_neg hnot]
        rfl
    · contradiction

theorem traced_extendOr {next : Except Complaint Config}
    (hnext : Settled names (bound stack) look → next = .ok c' →
      Traced names (flat ps ++ us ++ ts ++ look.toList) c')
    (hc : extendOr names items look stack value next = .ok c') :
    Traced names (flat ps ++ us ++ ts ++ look.toList) c' := by
  unfold extendOr at hc
  split at hc
  · next hextend =>
    cases hc
    exact traced_extend hrow hparts hstack h hextend
  · next hextend => exact hnext (settled_of_extend?_eq_none hextend) hc

end

/-! ## Completing what is open -/

section
variable (hrow : Row .semicolon items ps) (hparts : Parts names ps)
  (hstack : Stacked names (frame :: stack) us ts)
  (h : Pending names (bound (frame :: stack)) look ts value)
  (hsettled : Settled names (bound (frame :: stack)) look)
include hrow hparts hstack h hsettled

/-- The expression is the last item of a list, or one in front of a separator. -/
theorem Listed.traced {f : List Tree → Frame} {separator closing : Punct}
    {tree : Span → List Tree → Tree} (hlist : Listed f separator closing tree)
    (hframe : frame = f before)
    (hc : complete names items look (frame :: stack) value = .ok c') :
    Traced names (flat ps ++ us ++ ts ++ look.toList) c' := by
  subst hframe
  rw [hlist.complete_eq] at hc
  cases hstack with
  | @cons _ us _ qs _ hbelow hframed hqs hleads =>
  unfold behindItem at hc
  split at hc
  · next hclose =>
    cases hc
    obtain ⟨stop, rfl, rfl⟩ := hlist.eq_of_close? hclose
    have hwhole : ∀ rest, Leads names (bound stack)
        (flat (qs ++ [.part ts value]) ++ [⟨.punct closing, stop⟩]) []
        (.value (tree stop (value :: before))) rest := by
      intro rest
      have hbehind := h.leads_behind [] (.value (tree stop (value :: before))) hsettled hleads
        (fun items base => by rw [hlist.complete_eq, behindItem, hlist.close?_eq]; rfl) rest
      simpa using hbehind
    have hplaced := hlist.placed (hlist.framed_item hframed) (hqs.append (.part h.passage)) hwhole
    have hfollows := follows_flat qs [.part ts value, .token ⟨.punct closing, stop⟩]
    exact (Traced.mk hrow hparts (hbelow.mono (by simpa using hfollows)) hplaced).of_eq (by simp)
  split at hc
  · next hlook =>
    obtain ⟨span, rfl⟩ := Token.punct_of_any hlook
    cases hc
    have hbehind := h.leads_behind [f (value :: before)] .item hsettled hleads fun items base => by
      rw [hlist.complete_eq, behindItem, hlist.close?_separator, Option.any_some,
        if_pos (Token.isPunct_iff.mpr rfl)]
      rfl
    rw [← hlist.place_eq] at hbehind
    have hpush := hbelow.push (follows_flat qs _) (hlist.framed_separated hframed span)
      (hqs.append (.part_token h.passage _)) hbehind
    exact (Traced.mk hrow hparts hpush .item).of_eq (by simp)
  · contradiction

/-- The expression is the condition of a construct. -/
theorem Heads.traced {frame' : Frame} (hheads : Heads frame value frame')
    (hlast : ∀ items base, complete names items look (frame :: base) value =
      behindCondition items (frame' :: base) look)
    (hc : complete names items look (frame :: stack) value = .ok c') :
    Traced names (flat ps ++ us ++ ts ++ look.toList) c' := by
  have hplace : frame'.place = .operand := by cases hheads <;> rfl
  rw [hlast] at hc
  cases hstack with
  | @cons _ us _ qs _ hbelow hframed hqs hleads =>
  have hframed' : ∀ thens, ThenWord thens →
      Framed names frame' (qs ++ .part ts value :: thens) := by
    intro thens hthens
    cases hheads with
    | ifCondition =>
      cases hframed
      exact .thenBranch _ hthens
    | loopCondition =>
      cases hframed
      exact .loopBody _ hthens
  unfold behindCondition at hc
  split at hc
  · next hlook =>
    obtain ⟨span, rfl⟩ := Token.punct_of_any hlook
    cases hc
    -- the branch is entered at its brace, and only there
    have hstacked : Stacked names (frame' :: stack) (us ++ flat (qs ++ [.part ts value]))
        (flat [.token ⟨.punct .openBrace, span⟩]) := by
      refine .cons (hbelow.mono (follows_flat _ _)) (hframed' [] .absent)
        (hqs.append (.part h.passage)) fun rest hrest => ?_
      have hhead : rest.head? = some ⟨.punct .openBrace, span⟩ := hrest _ rfl
      intro ending items base point hpoint hbound
      rw [h.inside hleads (.inl hhead) ending items base point hpoint hbound, hplace]
      refine Config.run_congr ?_
      rw [bound_cons] at hsettled
      rw [hhead, List.singleton_append, feed_value_eq_complete (by rwa [bound_cons]), hlast,
        behindCondition, Option.any_some, if_pos (Token.isPunct_iff.mpr rfl)]
      rfl
    have hblock := hstacked.push (fun _ => id) (.block span .nil)
      (parts_token ⟨.punct .openBrace, span⟩)
      (leads_begins (.block span) (bound (frame' :: stack)))
    exact (Traced.mk hrow hparts hblock .item).of_eq (by simp)
  split at hc
  · next hlook =>
    obtain ⟨span, rfl⟩ := Token.keyword_of_any hlook
    cases hc
    have hbehind := h.leads_behind [frame'] .operand hsettled hleads hlast
    rw [← hplace] at hbehind
    have hpush := hbelow.push (follows_flat qs _) (hframed' _ (.present span))
      (hqs.append (.part_token h.passage _)) hbehind
    exact (Traced.mk hrow hparts hpush .operand).of_eq (by simp)
  · contradiction

end

/-- The expression is an item of the program. -/
theorem traced_item (hrow : Row .semicolon items ps) (hparts : Parts names ps)
    (h : Passage names ts value)
    (hc : behindItem (value :: items) [] .semicolon look = .ok c') :
    Traced names (flat ps ++ ts ++ look.toList) c' := by
  unfold behindItem at hc
  split at hc
  · next hclose =>
    cases hc
    rcases look with _ | t
    · cases hclose
      exact (Traced.mk hrow.item (hparts.append (.part h)) .nil .item).of_eq (by simp)
    · contradiction
  split at hc
  · next hlook =>
    obtain ⟨span, rfl⟩ := Token.punct_of_any hlook
    cases hc
    have hseparated : Row .semicolon (value :: items)
        (ps ++ [.part ts value, .token ⟨.punct .semicolon, span⟩]) := hrow.separated span
    exact (Traced.mk hseparated (hparts.append (.part_token h _)) .nil .item).of_eq (by simp)
  · contradiction

theorem traced_complete (hrow : Row .semicolon items ps) (hparts : Parts names ps)
    (hstack : Stacked names stack us ts) (h : Pending names (bound stack) look ts value)
    (hsettled : Settled names (bound stack) look)
    (hc : complete names items look stack value = .ok c') :
    Traced names (flat ps ++ us ++ ts ++ look.toList) c' := by
  induction stack generalizing us ts value with
  | nil =>
    cases hstack
    exact (traced_item hrow hparts h.passage hc).of_eq (by simp)
  | cons frame stack ih =>
    cases hstack with
    | @cons _ below _ qs _ hbelow hframed hqs hleads =>
    have hstack := hbelow.cons hframed hqs hleads
    -- the construct is complete with the operand, and the token is for it or for one around it
    have hwrap : ∀ whole : Tree, Wraps frame value whole →
        (∀ items base look', look' = look ∨ look' = none →
          complete names items look' (frame :: base) value =
            resume names items look' base whole) →
        extendOr names items look stack whole (complete names items look stack whole) = .ok c' →
        Traced names (flat ps ++ (below ++ flat qs) ++ ts ++ look.toList) c' := by
      intro whole hwraps hlast hc
      have hwhole := h.wrap hframed hqs hleads hwraps hsettled hlast
      have hstack := hbelow.mono (follows_flat qs [.part ts value])
      have htraced := traced_extendOr hrow hparts hstack hwhole
        (fun hsettled hnext => ih hstack hwhole hsettled hnext) hc
      exact htraced.of_eq (by simp)
    cases frame with
    | operand connective left =>
      rw [complete] at hc
      split at hc
      · next whole hjoin =>
        exact hwrap whole (.operand hjoin) (fun _ _ _ _ => by rw [complete, hjoin]; rfl) hc
      · contradiction
    | paren =>
      rw [complete] at hc
      split at hc
      · next hlook =>
        obtain ⟨span, rfl⟩ := Token.punct_of_any hlook
        cases hc
        cases hframed with
        | paren start =>
        have hbehind := h.leads_behind [] (.value value) hsettled hleads fun _ _ => rfl
        have hplaced : Placed names (bound stack) (.value value)
            (⟨.punct .openParen, start⟩ :: (ts ++ [⟨.punct .closeParen, span⟩])) :=
          .value (h.passage.dropped (.paren start span)) (by simpa using hbehind)
        have hstack := hbelow.mono (follows_append _ (ts ++ [⟨.punct .closeParen, span⟩]))
        exact (Traced.mk hrow hparts hstack hplaced).of_eq (by simp)
      · contradiction
    | block start before =>
      exact Listed.traced hrow hparts hstack h hsettled (.block start) rfl hc
    | args callee start before =>
      exact Listed.traced hrow hparts hstack h hsettled (.args callee start) rfl hc
    | ifCondition start =>
      exact Heads.traced hrow hparts hstack h hsettled (.ifCondition start value)
        (fun _ _ => rfl) hc
    | thenBranch start condition =>
      rw [complete] at hc
      split at hc
      · next hlook =>
        obtain ⟨span, rfl⟩ := Token.keyword_of_any hlook
        cases hc
        cases hframed with
        | @thenBranch _ us thens _ hthens =>
        have hframed : Framed names (.elseBranch start condition value)
            (.token ⟨.keyword .ifWord, start⟩ :: .part us condition :: thens ++
              [.part ts value, .token ⟨.keyword .elseWord, span⟩]) := .elseBranch start span hthens
        have hpush := hbelow.push (follows_flat _ _) hframed
          (hqs.append (.part_token h.passage _))
          (h.leads_behind _ .operand hsettled hleads fun _ _ => rfl)
        exact (Traced.mk hrow hparts hpush .operand).of_eq (by simp)
      · next hlook =>
        refine hwrap _ (.thenBranch start condition value) (fun _ _ _ hlook' => ?_) hc
        rcases hlook' with rfl | rfl
        · rw [complete, if_neg hlook]
          rfl
        · rfl
    | elseBranch start condition branch =>
      exact hwrap _ (.elseBranch start condition branch value) (fun _ _ _ _ => rfl) hc
    | loopCondition start =>
      exact Heads.traced hrow hparts hstack h hsettled (.loopCondition start value)
        (fun _ _ => rfl) hc
    | loopBody start condition =>
      exact hwrap _ (.loopBody start condition value) (fun _ _ _ _ => rfl) hc
    | lambdaBody start params =>
      exact hwrap _ (.lambdaBody start params value) (fun _ _ _ _ => rfl) hc

/-! ## One token, and all of them -/

section
variable (hrow : Row .semicolon items ps) (hparts : Parts names ps)
include hrow hparts

/-- A list is closed where an item might begin. -/
theorem Listed.traced_close {f : List Tree → Frame} {separator closing : Punct}
    {tree : Span → List Tree → Tree} (hlist : Listed f separator closing tree)
    (hstack : Stacked names (f before :: stack) us []) (stop : Span) :
    Traced names (flat ps ++ us ++ [⟨.punct closing, stop⟩])
      ⟨items, stack, .value (tree stop before)⟩ := by
  cases hstack with
  | @cons _ us _ qs _ hbelow hframed hqs hleads =>
  have hwhole : ∀ rest, Leads names (bound stack) (flat qs ++ [⟨.punct closing, stop⟩]) []
      (.value (tree stop before)) rest := by
    intro rest
    refine (hleads _ (follows_nil _)).step fun items base _ => ?_
    rw [hlist.place_eq, List.singleton_append, Config.feed, hlist.close?_eq]
    rfl
  have hplaced := hlist.placed hframed hqs hwhole
  exact (Traced.mk hrow hparts (hbelow.mono (follows_append _ _)) hplaced).of_eq (by simp)

section
variable {start : Span} {params : List Name}
  (hstack : Stacked names stack us (⟨.keyword .lambdaWord, start⟩ :: ts))
  (hleads : ∀ rest, Leads names (bound stack) (⟨.keyword .lambdaWord, start⟩ :: ts) [] point rest)
include hstack hleads

/-- One more token of the parameters. -/
theorem traced_params (hparams : Params params (ts ++ [t])) (hplace : InParams start params place)
    (hfeed : ∀ items base, Config.feed names ⟨items, base, point⟩ (some t) =
      .ok ⟨items, base, place⟩) :
    Traced names (flat ps ++ us ++ (⟨.keyword .lambdaWord, start⟩ :: ts) ++ [t])
      ⟨items, stack, place⟩ := by
  have hplaced : Placed names (bound stack) place (⟨.keyword .lambdaWord, start⟩ :: (ts ++ [t])) :=
    .params hparams hplace fun rest =>
      (hleads (t :: rest)).step fun items base _ => hfeed items base
  exact (Traced.mk hrow hparts (hstack.mono (follows_append _ [t])) hplaced).of_eq (by simp)

/-- The bracket behind the parameters. -/
theorem traced_closeParams (hparams : Params params ts) (span : Span)
    (hfeed : ∀ items base,
      Config.feed names ⟨items, base, point⟩ (some ⟨.punct .closeParen, span⟩) =
        .ok ⟨items, .lambdaBody start params.reverse :: base, .operand⟩) :
    Traced names
      (flat ps ++ us ++ (⟨.keyword .lambdaWord, start⟩ :: ts) ++ [⟨.punct .closeParen, span⟩])
      ⟨items, .lambdaBody start params.reverse :: stack, .operand⟩ := by
  have hframed : Framed names (.lambdaBody start params.reverse) _ := .lambdaBody start span hparams
  have hpush := hstack.push (by rw [flat_tokens]; exact fun _ => id) hframed (parts_tokens _)
    fun rest => by
      rw [flat_tokens]
      exact (hleads (_ :: rest)).step fun items base _ => hfeed items base
  exact (Traced.mk hrow hparts hpush .operand).of_eq (by simp)

end

end

/-- What one step keeps. -/
theorem traced_feed (h : Traced names ts c) (hc : c.feed names look = .ok c') :
    Traced names (ts ++ look.toList) c' := by
  cases h with
  | @mk ps us tail items stack point hrow hparts hstack hplace =>
  cases hplace with
  | operand => exact (traced_begin hrow hparts hstack hc).of_eq (by simp)
  | item =>
    rw [Config.feed] at hc
    split at hc
    · next hclose =>
      cases hc
      obtain ⟨place, hcloses, hplace⟩ := closesList_of_close? hclose
      rw [List.append_nil, hplace]
      generalize c'.stack = below at hcloses
      cases hcloses with
      | block start before _ stop =>
        exact Listed.traced_close hrow hparts (.block start) hstack stop
      | args callee start before _ stop =>
        exact Listed.traced_close hrow hparts (.args callee start) hstack stop
      | program => exact (Traced.mk hrow hparts hstack .item).of_eq (by simp)
    · exact (traced_begin hrow hparts hstack hc).of_eq (by simp)
  | value hpassage hleads =>
    have hpending : Pending names (bound stack) look tail _ := ⟨hpassage, fun rest _ => hleads rest⟩
    exact traced_extendOr hrow hparts hstack hpending
      (fun hsettled hnext => traced_complete hrow hparts hstack hpending hsettled hnext) hc
  | paramList start =>
    rw [Config.feed] at hc
    split at hc
    · next hlook =>
      obtain ⟨span, rfl⟩ := Token.punct_of_any hlook
      cases hc
      exact traced_params hrow hparts hstack (fun rest => leads_begins (.lambdaWord start) _ rest)
        (.opened span) .param fun _ _ => rfl
    · contradiction
  | @params start before _ ts hparams hplace hleads =>
    cases hplace with
    | param =>
      rw [Config.feed] at hc
      split at hc
      · next hlook =>
        obtain ⟨span, rfl⟩ := Token.punct_of_any hlook
        cases hc
        exact traced_closeParams hrow hparts hstack hleads hparams span fun _ _ => rfl
      split at hc
      · next name hname =>
        obtain ⟨span, rfl⟩ := eq_of_identifier? hname
        cases hc
        exact traced_params hrow hparts hstack hleads (hparams.param name span) .paramEnd
          fun _ _ => rfl
      · contradiction
    | paramEnd =>
      rw [Config.feed] at hc
      split at hc
      · next hlook =>
        obtain ⟨span, rfl⟩ := Token.punct_of_any hlook
        cases hc
        exact traced_closeParams hrow hparts hstack hleads hparams span fun _ _ => rfl
      split at hc
      · next hlook =>
        obtain ⟨span, rfl⟩ := Token.punct_of_any hlook
        cases hc
        exact traced_params hrow hparts hstack hleads (hparams.comma span) .param fun _ _ => rfl
      · contradiction

theorem traced_feedAll (h : Traced names ts c) (hc : c.feedAll names us = .ok c') :
    Traced names (ts ++ us) c' := by
  induction us generalizing ts c with
  | nil =>
    cases hc
    rwa [List.append_nil]
  | cons t us ih =>
    rw [Config.feedAll] at hc
    split at hc
    · next d hd =>
      rw [List.append_cons]
      exact ih (traced_feed h hd) hc
    · contradiction

/-- The items of a program were read from passages, and every token is in one or separates them. -/
theorem row_of_run_ok {offset : Nat} {tree : Tree}
    (h : (Config.start.run names (.ok offset) ts).1 = .ok tree) :
    ∃ items ps, tree = .seq (programSpan items) items ∧ Row .semicolon items.reverse ps ∧
      Parts names ps ∧ ts = flat ps := by
  obtain ⟨c, items, hall, hend, rfl⟩ := exists_feedAll_of_run h
  have htraced := traced_feed (traced_feedAll traced_start hall) hend
  rw [List.nil_append, Option.toList_none, List.append_nil] at htraced
  generalize hts : ts = us at htraced
  cases htraced with
  | @mk ps _ _ _ _ _ hrow hparts hstack hplace =>
    cases hstack
    cases hplace with
    | item =>
      rw [← List.reverse_reverse items] at hrow
      exact ⟨items.reverse, ps, rfl, hrow, hparts, by simp⟩
    | params _ hinside => cases hinside

end Grammar

end LambdaScript
