import LambdaScript.Proofs.Descent
/-!
# Spelling and reading

`Spells` says which tokens spell a tree: brackets stand where precedence asks for them, and more of
them may stand around any expression. Reading undoes spelling (`parseSource_of_spells`): a source
whose tokens spell some trees is read as these trees, up to spans.

How tightly a tree holds together is one number, its `tightness`. A place in a larger tree asks for
some least tightness, and what holds together less stands in brackets there. The induction carries
what this means for the machine: the bound under which the tree is read, and the token that may
follow it (`Grammar.Fits`).
-/

namespace LambdaScript

namespace Expr

variable {ι : Type}

mutual

/-- A tree without its spans. -/
def bare : Expr ι → Expr ι
  | number _ value => .number .dummy value
  | string _ contents => .string .dummy contents
  | bool _ value => .bool .dummy value
  | var _ name => .var .dummy name
  | assign _ target value => .assign .dummy target (bare value)
  | binary _ op left right => .binary .dummy op (bare left) (bare right)
  | ifThen _ condition thenBranch => .ifThen .dummy (bare condition) (bare thenBranch)
  | ifElse _ condition thenBranch elseBranch =>
    .ifElse .dummy (bare condition) (bare thenBranch) (bare elseBranch)
  | loop _ condition body => .loop .dummy (bare condition) (bare body)
  | seq _ items => .seq .dummy (bareAll items)
  | lambda _ label params body => .lambda .dummy label params (bare body)
  | call _ callee args => .call .dummy (bare callee) (bareAll args)

/-- The trees of a list without their spans. -/
def bareAll : List (Expr ι) → List (Expr ι)
  | [] => []
  | item :: items => bare item :: bareAll items

end

theorem bareAll_eq_map (items : List (Expr ι)) : bareAll items = items.map bare := by
  induction items with
  | nil => rfl
  | cons item items ih => rw [bareAll, ih, List.map_cons]

theorem eq_var_of_bare_eq {e : Expr ι} {span : Span} {name : Name}
    (h : e.bare = (.var span name : Expr ι).bare) : ∃ s, e = .var s name := by
  cases e with
  | var s found =>
    have heq : found = name := by simpa [bare] using h
    exact ⟨s, by rw [heq]⟩
  | _ => contradiction

/-- The tightness of what needs no brackets anywhere. -/
def closed : Nat := 21

/-- How tightly a tree holds together. A form that goes on as far as it can holds least, an operator
as its precedence says. -/
def tightness : Expr ι → Nat
  | assign .. | ifThen .. | ifElse .. | loop .. | lambda .. => 0
  | binary _ op _ _ => op.precedence
  | number .. | string .. | bool .. | var .. | seq .. | call .. => closed

end Expr

/-! ## Spellings -/

/-- A part of a program that is spelled. -/
inductive Phrase where
  /-- A tree where at least this tightness is needed. -/
  | operand (least : Nat) (tree : Tree)
  /-- A tree without brackets around it. -/
  | plain (tree : Tree)
  /-- A tree behind a condition. -/
  | branch (least : Nat) (tree : Tree)
  /-- Trees with separators. -/
  | list (separator : Punct) (trees : List Tree)
  /-- Parameters with separators. -/
  | params (params : List Name)

/-- These tokens spell a phrase. -/
inductive Spells (names : Interner) : Phrase → List TokenKind → Prop where
  /-- What holds together tightly enough needs no brackets. -/
  | plain {least : Nat} {tree : Tree} {ws : List TokenKind} (hleast : least ≤ tree.tightness)
      (h : Spells names (.plain tree) ws) : Spells names (.operand least tree) ws
  | paren {tree : Tree} {ws : List TokenKind} (least : Nat)
      (h : Spells names (.operand 0 tree) ws) :
      Spells names (.operand least tree) (.punct .openParen :: (ws ++ [.punct .closeParen]))
  | block {tree : Tree} {ws : List TokenKind} (least : Nat)
      (h : Spells names (.list .semicolon [tree]) ws) :
      Spells names (.operand least tree) (.punct .openBrace :: (ws ++ [.punct .closeBrace]))
  | number (s : Span) (value : Float) : Spells names (.plain (.number s value)) [.number value]
  | string (s : Span) (contents : Name) :
      Spells names (.plain (.string s contents)) [.string contents]
  | bool (s : Span) (value : Bool) :
      Spells names (.plain (.bool s value)) [.keyword (if value then .trueWord else .falseWord)]
  | emptyBlock (s : Span) :
      Spells names (.plain (.bool s false)) [.punct .openBrace, .punct .closeBrace]
  | var (s : Span) (name : Name) : Spells names (.plain (.var s name)) [.identifier name]
  | assign (s t : Span) {target n : Name} {value : Tree} {xs ws : List TokenKind}
      (hn : names.spelling n = "=") (htarget : Spells names (.operand 1 (.var t target)) xs)
      (hvalue : Spells names (.operand 0 value) ws) :
      Spells names (.plain (.assign s target value)) (xs ++ .operator n :: ws)
  /-- Operators associate to the left: an operand on the right has to hold tighter. -/
  | binary (s : Span) {op : BinaryOp} {n : Name} {left right : Tree} {xs ws : List TokenKind}
      (hn : names.spelling n = op.symbol)
      (hleft : Spells names (.operand op.precedence left) xs)
      (hright : Spells names (.operand (op.precedence + 1) right) ws) :
      Spells names (.plain (.binary s op left right)) (xs ++ .operator n :: ws)
  | ifThen (s : Span) {condition thenBranch : Tree} {xs ws : List TokenKind}
      (hcondition : Spells names (.operand 0 condition) xs)
      (hthen : Spells names (.branch 0 thenBranch) ws) :
      Spells names (.plain (.ifThen s condition thenBranch)) (.keyword .ifWord :: (xs ++ ws))
  /-- A branch in front of `else` must not take that word for itself. -/
  | ifElse (s : Span) {condition thenBranch elseBranch : Tree} {xs ws us : List TokenKind}
      (hcondition : Spells names (.operand 0 condition) xs)
      (hthen : Spells names (.branch 1 thenBranch) ws)
      (helse : Spells names (.operand 0 elseBranch) us) :
      Spells names (.plain (.ifElse s condition thenBranch elseBranch))
        (.keyword .ifWord :: (xs ++ (ws ++ .keyword .elseWord :: us)))
  | loop (s : Span) {condition body : Tree} {xs ws : List TokenKind}
      (hcondition : Spells names (.operand 0 condition) xs)
      (hbody : Spells names (.branch 0 body) ws) :
      Spells names (.plain (.loop s condition body)) (.keyword .whileWord :: (xs ++ ws))
  | seq (s : Span) {items : List Tree} {ws : List TokenKind} (hitems : 2 ≤ items.length)
      (h : Spells names (.list .semicolon items) ws) :
      Spells names (.plain (.seq s items)) (.punct .openBrace :: (ws ++ [.punct .closeBrace]))
  | lambda (s : Span) {params : List Name} {body : Tree} {xs ws : List TokenKind}
      (hparams : Spells names (.params params) xs) (hbody : Spells names (.operand 0 body) ws) :
      Spells names (.plain (.lambda s () params body))
        (.keyword .lambdaWord :: .punct .openParen :: (xs ++ .punct .closeParen :: ws))
  | call (s : Span) {callee : Tree} {args : List Tree} {xs ws : List TokenKind}
      (hcallee : Spells names (.operand Expr.closed callee) xs)
      (hargs : Spells names (.list .comma args) ws) :
      Spells names (.plain (.call s callee args))
        (xs ++ .punct .openParen :: (ws ++ [.punct .closeParen]))
  | withThen {least : Nat} {tree : Tree} {ws : List TokenKind}
      (h : Spells names (.operand least tree) ws) :
      Spells names (.branch least tree) (.keyword .thenWord :: ws)
  /-- The word `then` may be missing in front of a brace. -/
  | withoutThen {least : Nat} {tree : Tree} {ws : List TokenKind}
      (h : Spells names (.operand least tree) (.punct .openBrace :: ws)) :
      Spells names (.branch least tree) (.punct .openBrace :: ws)
  | noItem (separator : Punct) : Spells names (.list separator []) []
  | lastItem {separator : Punct} {tree : Tree} {ws : List TokenKind}
      (h : Spells names (.operand 0 tree) ws) : Spells names (.list separator [tree]) ws
  /-- A separator stands behind an item, be it the last one or not. -/
  | item {separator : Punct} {tree : Tree} {trees : List Tree} {ws us : List TokenKind}
      (h : Spells names (.operand 0 tree) ws) (hmore : Spells names (.list separator trees) us) :
      Spells names (.list separator (tree :: trees)) (ws ++ .punct separator :: us)
  | noParam : Spells names (.params []) []
  | lastParam (name : Name) : Spells names (.params [name]) [.identifier name]
  | param (name : Name) {params : List Name} {us : List TokenKind}
      (hmore : Spells names (.params params) us) :
      Spells names (.params (name :: params)) (.identifier name :: .punct .comma :: us)

namespace Grammar

variable {names : Interner} {ending : Except LexError Nat} {items : List Tree}
  {stack : List Frame} {look : Option Token}

/-! ## Where a tree can be read -/

/-- A tree of this tightness is read whole under a bound and in front of a token: nothing of it is
left to what stands before it, and it takes nothing of what stands behind it. -/
structure Fits (names : Interner) (tightness bound : Nat) (look : Option Token) : Prop where
  above : tightness < Expr.closed → bound ≤ tightness - 1
  settled : tightness < Expr.closed → Settled names tightness look
  noElse : tightness = 0 → look.any (·.isKeyword .elseWord) = false

theorem Fits.mono {least tightness b : Nat} (h : Fits names least b look)
    (hleast : least ≤ tightness) : Fits names tightness b look where
  above hclosed := by
    have := h.above (by omega)
    omega
  settled hclosed := settled_mono (h.settled (by omega)) hleast
  noElse hzero := h.noElse (by omega)

theorem fits_closed (b : Nat) (look : Option Token) : Fits names Expr.closed b look where
  above hlt := absurd hlt (Nat.lt_irrefl _)
  settled hlt := absurd hlt (Nat.lt_irrefl _)
  noElse hzero := absurd hzero (by decide)

/-- Punctuation other than the bracket of arguments ends every tree that was begun without a
bound. -/
theorem fits_of_punct {p : Punct} (hp : p ≠ .openParen) (span : Span) :
    Fits names 0 0 (some ⟨.punct p, span⟩) where
  above _ := Nat.le_refl _
  settled _ := settled_of_isPunct (p := p) (by simp [Token.isPunct]) hp
  noElse _ := rfl

/-! ## What a spelling means -/

/-- A list with a separator and what stands behind it, as the machine goes through it. The complete
items are given in reverse. -/
structure ListPlace (names : Interner) (separator : Punct) (stop : Option Token) where
  items : List Tree → List Tree
  stack : List Tree → List Frame
  separator_ne : separator ≠ .openParen
  bound_eq (before : List Tree) : bound (stack before) = 0
  fits : Fits names 0 0 stop
  behind_stop (before : List Tree) (item : Tree) :
    Config.feed names ⟨items before, stack before, .value item⟩ stop =
      Config.feed names ⟨items (item :: before), stack (item :: before), .item⟩ stop
  behind_separator (before : List Tree) (item : Tree) (span : Span) :
    Config.feed names ⟨items before, stack before, .value item⟩ (some ⟨.punct separator, span⟩) =
      .ok ⟨items (item :: before), stack (item :: before), .item⟩

variable (names ending) in
/-- These tokens are read as the tree, wherever that is possible. -/
def ReadAs (tightness : Nat) (tree : Tree) (ws : List TokenKind) : Prop :=
  ∀ items stack (point : Point) (tokens rest : List Token), point.Ready →
    tokens.map Token.kind = ws → Fits names tightness (bound stack) rest.head? →
    ∃ found : Tree, found.bare = tree.bare ∧
      Config.run names ending ⟨items, stack, point⟩ (tokens ++ rest) =
        Config.run names ending ⟨items, stack, .value found⟩ rest

variable (names ending) in
/-- What a spelling of a phrase means for the machine. -/
def Means : Phrase → List TokenKind → Prop
  | .operand least tree, ws => ReadAs names ending least tree ws
  | .plain tree, ws => ReadAs names ending tree.tightness tree ws
  | .branch least tree, ws =>
    ∀ items stack frame (condition : Tree) (tokens rest : List Token),
      (∀ look, complete names items look stack condition =
        behindCondition items (frame :: stack.tail) look) →
      bound stack = 0 → bound (frame :: stack.tail) = 0 →
      tokens.map Token.kind = ws → Fits names least 0 rest.head? →
      Fits names 0 0 (tokens ++ rest).head? ∧ ∃ found : Tree, found.bare = tree.bare ∧
        Config.run names ending ⟨items, stack, .value condition⟩ (tokens ++ rest) =
          Config.run names ending ⟨items, frame :: stack.tail, .value found⟩ rest
  | .list separator trees, ws =>
    ∀ (tokens rest : List Token) (place : ListPlace names separator rest.head?) before,
      tokens.map Token.kind = ws →
      ∃ found : List Tree, found.map Expr.bare = trees.map Expr.bare ∧
        Config.run names ending ⟨place.items before, place.stack before, .item⟩ (tokens ++ rest) =
          Config.run names ending ⟨place.items (found.reverse ++ before),
            place.stack (found.reverse ++ before), .item⟩ rest
  | .params params, ws =>
    ∀ items stack start before (tokens rest : List Token) (close : Token),
      tokens.map Token.kind = ws → close.isPunct .closeParen = true →
      Config.run names ending ⟨items, stack, .param start before⟩ (tokens ++ close :: rest) =
        Config.run names ending
          ⟨items, .lambdaBody start (before.reverse ++ params) :: stack, .operand⟩ rest

theorem readAs_leaf {tightness : Nat} {tree : Tree} {kind : TokenKind} (leaf : Span → Tree)
    (hbegin : ∀ items stack span, begin items stack (some ⟨kind, span⟩) =
      .ok ⟨items, stack, .value (leaf span)⟩)
    (hbare : ∀ span, (leaf span).bare = tree.bare) : ReadAs names ending tightness tree [kind] := by
  intro items stack point tokens rest hpoint htokens hfits
  obtain ⟨⟨_, span⟩, rfl, rfl⟩ := List.map_eq_singleton_iff.mp htokens
  exact ⟨leaf span, hbare span, run_begin hpoint (hbegin items stack span)⟩

theorem exists_of_map_kind_cons {tokens : List Token} {kind : TokenKind} {ws : List TokenKind}
    (h : tokens.map Token.kind = kind :: ws) :
    ∃ span more, tokens = ⟨kind, span⟩ :: more ∧ more.map Token.kind = ws := by
  obtain ⟨⟨_, span⟩, more, rfl, rfl, hmore⟩ := List.map_eq_cons_iff.mp h
  exact ⟨span, more, rfl, hmore⟩

/-- Two brackets of the same kind as the innermost list, around what stands in it. -/
theorem exists_of_map_kind_append_singleton {tokens : List Token} {kind : TokenKind}
    {ws : List TokenKind} (h : tokens.map Token.kind = ws ++ [kind]) :
    ∃ inner span, tokens = inner ++ [⟨kind, span⟩] ∧ inner.map Token.kind = ws := by
  obtain ⟨inner, last, rfl, hinner, hlast⟩ := List.map_eq_append_iff.mp h
  obtain ⟨⟨_, span⟩, rfl, rfl⟩ := List.map_eq_singleton_iff.mp hlast
  exact ⟨inner, span, rfl, hinner⟩

theorem readAs_paren {least : Nat} {tree : Tree} {ws : List TokenKind}
    (h : ReadAs names ending 0 tree ws) :
    ReadAs names ending least tree (.punct .openParen :: (ws ++ [.punct .closeParen])) := by
  intro items stack point tokens rest hpoint htokens hfits
  obtain ⟨start, more, rfl, hmore⟩ := exists_of_map_kind_cons htokens
  obtain ⟨inner, stop, rfl, hinner⟩ := exists_of_map_kind_append_singleton hmore
  have hclose : Fits names 0 0 (some ⟨.punct .closeParen, stop⟩) := fits_of_punct (by decide) stop
  obtain ⟨found, hfound, hrun⟩ := h items (.paren :: stack) .operand inner
    (⟨.punct .closeParen, stop⟩ :: rest) (.inl rfl) hinner hclose
  refine ⟨found, hfound, ?_⟩
  rw [List.cons_append, List.append_assoc, run_begin hpoint rfl]
  rw [List.singleton_append, hrun]
  refine Config.run_cons_of_ok ?_
  rw [feed_value_eq_complete (hclose.settled (by decide))]
  rfl

/-! ## Lists -/

/-- The place of a list that is innermost. -/
def framePlace (items : List Tree) (stack : List Frame) (frame : List Tree → Frame)
    {separator : Punct} {stop : Option Token}
    (hbound : ∀ before, bound (frame before :: stack) = 0)
    (hcomplete : ∀ before look value, complete names items look (frame before :: stack) value =
      behindItem items (frame (value :: before) :: stack) separator look)
    (hfits : Fits names 0 0 stop)
    (hstop : ∀ before, (close? items (frame before :: stack) stop).isSome = true)
    (hseparator : separator ≠ .openParen)
    (hopen : ∀ before span, close? items (frame before :: stack) (some ⟨.punct separator, span⟩) =
      none) : ListPlace names separator stop where
  items _ := items
  stack before := frame before :: stack
  separator_ne := hseparator
  bound_eq := hbound
  fits := hfits
  behind_stop before item := by
    obtain ⟨c, hc⟩ := Option.isSome_iff_exists.mp (hstop (item :: before))
    have hsettled : Settled names 0 stop := hfits.settled (by decide)
    have hitem :
        Config.feed names ⟨items, frame (item :: before) :: stack, .item⟩ stop = .ok c := by
      rw [Config.feed, hc]
    rw [hitem, feed_value_eq_complete (hbound before ▸ hsettled), hcomplete, behindItem, hc]
  behind_separator before item span := by
    have hsettled : Settled names 0 (some ⟨.punct separator, span⟩) :=
      settled_of_isPunct (p := separator) (by simp [Token.isPunct]) hseparator
    rw [feed_value_eq_complete (hbound before ▸ hsettled), hcomplete, behindItem, hopen]
    simp [Token.isPunct]

/-- A block is read as what its items make. -/
theorem run_block {trees : List Tree} {ws : List TokenKind}
    (h : Means names ending (.list .semicolon trees) ws) (items : List Tree) (stack : List Frame)
    {point : Point} {tokens : List Token} (rest : List Token) (hpoint : point.Ready)
    (htokens : tokens.map Token.kind = .punct .openBrace :: (ws ++ [.punct .closeBrace])) :
    ∃ (found : List Tree) (span : Span), found.map Expr.bare = trees.map Expr.bare ∧
      Config.run names ending ⟨items, stack, point⟩ (tokens ++ rest) =
        Config.run names ending ⟨items, stack, .value (blockTree span found)⟩ rest := by
  obtain ⟨start, more, rfl, hmore⟩ := exists_of_map_kind_cons htokens
  obtain ⟨inner, stop, rfl, hinner⟩ := exists_of_map_kind_append_singleton hmore
  obtain ⟨found, hfound, hrun⟩ := h inner (⟨.punct .closeBrace, stop⟩ :: rest)
    (framePlace items stack (.block start) (fun _ => rfl) (fun _ _ _ => rfl)
      (fits_of_punct (by decide) stop) (fun _ => rfl) (by decide) fun _ _ => rfl) [] hinner
  refine ⟨found, start.merge stop, hfound, ?_⟩
  rw [List.cons_append, List.append_assoc, run_begin hpoint rfl, List.singleton_append]
  refine hrun.trans (Config.run_cons_of_ok ?_)
  simp [framePlace, Config.feed, close?, Token.isPunct]

/-- A callee is read as its call. -/
theorem run_args {trees : List Tree} {ws : List TokenKind}
    (h : Means names ending (.list .comma trees) ws) (items : List Tree) (stack : List Frame)
    (callee : Tree) {tokens : List Token} (rest : List Token)
    (htokens : tokens.map Token.kind = .punct .openParen :: (ws ++ [.punct .closeParen])) :
    ∃ (found : List Tree) (span : Span), found.map Expr.bare = trees.map Expr.bare ∧
      Config.run names ending ⟨items, stack, .value callee⟩ (tokens ++ rest) =
        Config.run names ending ⟨items, stack, .value (.call span callee found)⟩ rest := by
  obtain ⟨start, more, rfl, hmore⟩ := exists_of_map_kind_cons htokens
  obtain ⟨inner, stop, rfl, hinner⟩ := exists_of_map_kind_append_singleton hmore
  obtain ⟨found, hfound, hrun⟩ := h inner (⟨.punct .closeParen, stop⟩ :: rest)
    (framePlace items stack (.args callee start) (fun _ => rfl) (fun _ _ _ => rfl)
      (fits_of_punct (by decide) stop) (fun _ => rfl) (by decide) fun _ _ => rfl) [] hinner
  refine ⟨found, callee.span.merge (start.merge stop), hfound, ?_⟩
  rw [List.cons_append, List.append_assoc, Config.run_cons_of_ok rfl, List.singleton_append]
  refine hrun.trans (Config.run_cons_of_ok ?_)
  simp [framePlace, Config.feed, close?, Token.isPunct]

theorem means_lastItem {separator : Punct} {tree : Tree} {ws : List TokenKind}
    (h : ReadAs names ending 0 tree ws) : Means names ending (.list separator [tree]) ws := by
  intro tokens rest place before htokens
  have hfits : Fits names 0 (bound (place.stack before)) rest.head? := by
    rw [place.bound_eq]
    exact place.fits
  obtain ⟨found, hfound, hrun⟩ := h (place.items before) (place.stack before) .item tokens rest
    (.inr rfl) htokens hfits
  refine ⟨[found], congrArg (fun t => [t]) hfound, hrun.trans ?_⟩
  exact (Config.run_congr (place.behind_stop before found).symm).symm

theorem means_item {separator : Punct} {tree : Tree} {trees : List Tree} {ws us : List TokenKind}
    (h : ReadAs names ending 0 tree ws) (hmore : Means names ending (.list separator trees) us) :
    Means names ending (.list separator (tree :: trees)) (ws ++ .punct separator :: us) := by
  intro tokens rest place before htokens
  obtain ⟨first, more, rfl, hfirst, hsecond⟩ := List.map_eq_append_iff.mp htokens
  obtain ⟨span, more, rfl, htail⟩ := exists_of_map_kind_cons hsecond
  have hfits : Fits names 0 (bound (place.stack before)) (some ⟨.punct separator, span⟩) := by
    rw [place.bound_eq]
    exact fits_of_punct place.separator_ne span
  obtain ⟨found, hfound, hrun⟩ := h (place.items before) (place.stack before) .item first
    (⟨.punct separator, span⟩ :: (more ++ rest)) (.inr rfl) hfirst hfits
  obtain ⟨others, hothers, hruns⟩ := hmore more rest place (found :: before) htail
  refine ⟨found :: others, ?_, ?_⟩
  · rw [List.map_cons, List.map_cons, hfound, hothers]
  · rw [List.append_assoc, List.cons_append, hrun,
      Config.run_cons_of_ok (place.behind_separator before found span), hruns]
    simp

/-! ## Forms -/

/-- An operator that binds tightly enough takes what was read as its left operand. -/
theorem feed_operator {c : Connective} {n : Name} (items : List Tree) (value : Tree) (span : Span)
    (hn : names.spelling n = c.symbol) (hbound : bound stack < c.precedence) :
    Config.feed names ⟨items, stack, .value value⟩ (some ⟨.operator n, span⟩) =
      .ok ⟨items, .operand c value :: stack, .operand⟩ := by
  have hloose : ¬c.precedence ≤ bound stack := Nat.not_le_of_lt hbound
  rw [Config.feed, resume, extendOr, extend?, connective?_of_spelling hn]
  simp [Token.isPunct, hloose]

theorem readAs_binary {s : Span} {op : BinaryOp} {n : Name} {left right : Tree}
    {xs ws : List TokenKind} (hn : names.spelling n = op.symbol)
    (hleft : ReadAs names ending op.precedence left xs)
    (hright : ReadAs names ending (op.precedence + 1) right ws) :
    ReadAs names ending op.precedence (.binary s op left right) (xs ++ .operator n :: ws) := by
  intro items stack point tokens rest hpoint htokens hfits
  obtain ⟨first, more, rfl, hfirst, hmore⟩ := List.map_eq_append_iff.mp htokens
  obtain ⟨span, second, rfl, hsecond⟩ := exists_of_map_kind_cons hmore
  have hop : 0 < op.precedence ∧ op.precedence < Expr.closed := by cases op <;> decide
  have habove := hfits.above hop.2
  have hsettled := hfits.settled hop.2
  -- the left operand ends at the operator, which binds no tighter than what is in it
  obtain ⟨l, hl, hrunl⟩ := hleft items stack point first (⟨.operator n, span⟩ :: (second ++ rest))
    hpoint hfirst
    ⟨fun _ => habove, fun _ => settled_of_operator (c := .binary op) span hn, fun hzero => by omega⟩
  have hoperator := feed_operator (c := .binary op) items l span hn
    (show bound stack < op.precedence by omega)
  obtain ⟨r, hr, hrunr⟩ := hright items (.operand (.binary op) l :: stack) .operand second rest
    (.inl rfl) hsecond
    ⟨fun _ => Nat.le_refl _, fun _ => settled_mono hsettled (Nat.le_succ _), fun hzero => by omega⟩
  refine ⟨.binary (l.span.merge r.span) op l r, ?_, ?_⟩
  · rw [Expr.bare, Expr.bare, hl, hr]
  · rw [List.append_assoc, List.cons_append, hrunl, Config.run_cons_of_ok hoperator, hrunr]
    exact run_value hsettled rfl

theorem readAs_assign {s t : Span} {target n : Name} {value : Tree} {xs ws : List TokenKind}
    (hn : names.spelling n = "=") (htarget : ReadAs names ending 1 (.var t target) xs)
    (hvalue : ReadAs names ending 0 value ws) :
    ReadAs names ending 0 (.assign s target value) (xs ++ .operator n :: ws) := by
  intro items stack point tokens rest hpoint htokens hfits
  obtain ⟨first, more, rfl, hfirst, hmore⟩ := List.map_eq_append_iff.mp htokens
  obtain ⟨span, second, rfl, hsecond⟩ := exists_of_map_kind_cons hmore
  have habove : bound stack ≤ 0 := hfits.above (by decide)
  have hsettled := hfits.settled (by decide)
  obtain ⟨l, hl, hrunl⟩ := htarget items stack point first (⟨.operator n, span⟩ :: (second ++ rest))
    hpoint hfirst
    ⟨fun _ => habove, fun _ => settled_of_operator (c := .assignment) span hn,
      fun hzero => absurd hzero (by decide)⟩
  -- the target may stand in brackets, which leave the variable as it is
  obtain ⟨place, rfl⟩ := Expr.eq_var_of_bare_eq hl
  have hoperator := feed_operator (c := .assignment) items (.var place target) span hn
    (Nat.lt_succ_of_le habove)
  obtain ⟨v, hv, hrunv⟩ := hvalue items (.operand .assignment (.var place target) :: stack) .operand
    second rest (.inl rfl) hsecond ⟨fun _ => Nat.le_refl _, hfits.settled, hfits.noElse⟩
  refine ⟨.assign (place.merge v.span) target v, ?_, ?_⟩
  · rw [Expr.bare, Expr.bare, hv]
  · rw [List.append_assoc, List.cons_append, hrunl, Config.run_cons_of_ok hoperator, hrunv]
    exact run_value hsettled rfl

theorem means_withThen {least : Nat} {tree : Tree} {ws : List TokenKind}
    (h : ReadAs names ending least tree ws) :
    Means names ending (.branch least tree) (.keyword .thenWord :: ws) := by
  intro items stack frame condition tokens rest hcomplete hbound hbound' htokens hfits
  obtain ⟨span, more, rfl, hmore⟩ := exists_of_map_kind_cons htokens
  have hsettled : Settled names 0 (some ⟨.keyword .thenWord, span⟩) := settled_of_keyword 0 _ span
  refine ⟨⟨fun _ => Nat.le_refl _, fun _ => hsettled, fun _ => rfl⟩, ?_⟩
  obtain ⟨found, hfound, hrun⟩ := h items (frame :: stack.tail) .operand more rest (.inl rfl) hmore
    (hbound' ▸ hfits)
  refine ⟨found, hfound, ?_⟩
  rw [List.cons_append, ← hrun]
  refine Config.run_cons_of_ok ?_
  rw [feed_value_eq_complete (hbound ▸ hsettled), hcomplete]
  rfl

theorem means_withoutThen {least : Nat} {tree : Tree} {ws : List TokenKind}
    (h : ReadAs names ending least tree (.punct .openBrace :: ws)) :
    Means names ending (.branch least tree) (.punct .openBrace :: ws) := by
  intro items stack frame condition tokens rest hcomplete hbound hbound' htokens hfits
  obtain ⟨span, more, rfl, hmore⟩ := exists_of_map_kind_cons htokens
  have hbrace : Fits names 0 0 (some ⟨.punct .openBrace, span⟩) := fits_of_punct (by decide) span
  have hsettled : Settled names 0 (some ⟨.punct .openBrace, span⟩) := hbrace.settled (by decide)
  refine ⟨hbrace, ?_⟩
  obtain ⟨found, hfound, hrun⟩ := h items (frame :: stack.tail) .operand
    (⟨.punct .openBrace, span⟩ :: more) rest (.inl rfl) htokens (hbound' ▸ hfits)
  refine ⟨found, hfound, ?_⟩
  rw [← hrun]
  refine Config.run_congr ?_
  rw [List.cons_append, List.head?_cons, feed_value_eq_complete (hbound ▸ hsettled), hcomplete]
  rfl

/-- A condition and what is done if it holds. -/
theorem run_condition {least : Nat} {condition branch : Tree} {xs ws : List TokenKind}
    {tokens : List Token} (rest : List Token) (items : List Tree) (stack : List Frame)
    (opening : Frame) (frame : Tree → Frame)
    (hcondition : ReadAs names ending 0 condition xs)
    (hbranch : Means names ending (.branch least branch) ws)
    (hcomplete : ∀ c look, complete names items look (opening :: stack) c =
      behindCondition items (frame c :: stack) look)
    (hbound : bound (opening :: stack) = 0) (hbound' : ∀ c, bound (frame c :: stack) = 0)
    (htokens : tokens.map Token.kind = xs ++ ws) (hfits : Fits names least 0 rest.head?) :
    ∃ c t : Tree, c.bare = condition.bare ∧ t.bare = branch.bare ∧
      Config.run names ending ⟨items, opening :: stack, .operand⟩ (tokens ++ rest) =
        Config.run names ending ⟨items, frame c :: stack, .value t⟩ rest := by
  obtain ⟨first, second, rfl, hfirst, hsecond⟩ := List.map_eq_append_iff.mp htokens
  have hbehind := fun c => hbranch items (opening :: stack) (frame c) c second rest (hcomplete c)
    hbound (hbound' c) hsecond hfits
  obtain ⟨c, hc, hrunc⟩ := hcondition items (opening :: stack) .operand first (second ++ rest)
    (.inl rfl) hfirst (hbound ▸ (hbehind default).1)
  obtain ⟨t, ht, hrunt⟩ := (hbehind c).2
  refine ⟨c, t, hc, ht, ?_⟩
  rw [List.append_assoc, hrunc, hrunt]
  rfl

theorem readAs_ifThen {s : Span} {condition thenBranch : Tree} {xs ws : List TokenKind}
    (hcondition : ReadAs names ending 0 condition xs)
    (hthen : Means names ending (.branch 0 thenBranch) ws) :
    ReadAs names ending 0 (.ifThen s condition thenBranch) (.keyword .ifWord :: (xs ++ ws)) := by
  intro items stack point tokens rest hpoint htokens hfits
  obtain ⟨start, more, rfl, hmore⟩ := exists_of_map_kind_cons htokens
  have hsettled := hfits.settled (by decide)
  obtain ⟨c, t, hc, ht, hrun⟩ := run_condition rest items stack (.ifCondition start)
    (.thenBranch start) hcondition hthen (fun _ _ => rfl) rfl (fun _ => rfl) hmore
    ⟨fun _ => Nat.le_refl _, hfits.settled, hfits.noElse⟩
  refine ⟨.ifThen (start.merge t.span) c t, ?_, ?_⟩
  · rw [Expr.bare, Expr.bare, hc, ht]
  · rw [List.cons_append, run_begin hpoint rfl, hrun]
    refine run_value hsettled ?_
    rw [complete, hfits.noElse rfl]
    rfl

theorem readAs_ifElse {s : Span} {condition thenBranch elseBranch : Tree}
    {xs ws us : List TokenKind} (hcondition : ReadAs names ending 0 condition xs)
    (hthen : Means names ending (.branch 1 thenBranch) ws)
    (helse : ReadAs names ending 0 elseBranch us) :
    ReadAs names ending 0 (.ifElse s condition thenBranch elseBranch)
      (.keyword .ifWord :: (xs ++ (ws ++ .keyword .elseWord :: us))) := by
  intro items stack point tokens rest hpoint htokens hfits
  obtain ⟨start, more, rfl, hmore⟩ := exists_of_map_kind_cons htokens
  rw [← List.append_assoc] at hmore
  obtain ⟨first, second, rfl, hfirst, hsecond⟩ := List.map_eq_append_iff.mp hmore
  obtain ⟨span, third, rfl, hthird⟩ := exists_of_map_kind_cons hsecond
  have hsettled := hfits.settled (by decide)
  -- `else` ends the branch, which is spelled so that no `if` in it could take the word
  have hword : ∀ b, Settled names b (some ⟨.keyword .elseWord, span⟩) :=
    fun b => settled_of_keyword b _ span
  obtain ⟨c, t, hc, ht, hrun⟩ := run_condition (⟨.keyword .elseWord, span⟩ :: (third ++ rest))
    items stack (.ifCondition start) (.thenBranch start) hcondition hthen (fun _ _ => rfl) rfl
    (fun _ => rfl) hfirst
    ⟨fun _ => Nat.le_refl _, fun _ => hword 1, fun hzero => absurd hzero (by decide)⟩
  have hfeed : Config.feed names ⟨items, .thenBranch start c :: stack, .value t⟩
      (some ⟨.keyword .elseWord, span⟩) =
        .ok ⟨items, .elseBranch start c t :: stack, .operand⟩ := by
    rw [feed_value_eq_complete (hword _)]
    rfl
  obtain ⟨e, he, hrune⟩ := helse items (.elseBranch start c t :: stack) .operand third rest
    (.inl rfl) hthird ⟨fun _ => Nat.le_refl _, hfits.settled, hfits.noElse⟩
  refine ⟨.ifElse (start.merge e.span) c t e, ?_, ?_⟩
  · rw [Expr.bare, Expr.bare, hc, ht, he]
  · rw [List.cons_append, run_begin hpoint rfl, List.append_assoc, List.cons_append, hrun,
      Config.run_cons_of_ok hfeed, hrune]
    exact run_value hsettled rfl

theorem readAs_loop {s : Span} {condition body : Tree} {xs ws : List TokenKind}
    (hcondition : ReadAs names ending 0 condition xs)
    (hbody : Means names ending (.branch 0 body) ws) :
    ReadAs names ending 0 (.loop s condition body) (.keyword .whileWord :: (xs ++ ws)) := by
  intro items stack point tokens rest hpoint htokens hfits
  obtain ⟨start, more, rfl, hmore⟩ := exists_of_map_kind_cons htokens
  have hsettled := hfits.settled (by decide)
  obtain ⟨c, b, hc, hb, hrun⟩ := run_condition rest items stack (.loopCondition start)
    (.loopBody start) hcondition hbody (fun _ _ => rfl) rfl (fun _ => rfl) hmore
    ⟨fun _ => Nat.le_refl _, hfits.settled, hfits.noElse⟩
  refine ⟨.loop (start.merge b.span) c b, ?_, ?_⟩
  · rw [Expr.bare, Expr.bare, hc, hb]
  · rw [List.cons_append, run_begin hpoint rfl, hrun]
    exact run_value hsettled rfl

theorem readAs_lambda {s : Span} {params : List Name} {body : Tree} {xs ws : List TokenKind}
    (hparams : Means names ending (.params params) xs) (hbody : ReadAs names ending 0 body ws) :
    ReadAs names ending 0 (.lambda s () params body)
      (.keyword .lambdaWord :: .punct .openParen :: (xs ++ .punct .closeParen :: ws)) := by
  intro items stack point tokens rest hpoint htokens hfits
  obtain ⟨start, more, rfl, hmore⟩ := exists_of_map_kind_cons htokens
  obtain ⟨bracket, inner, rfl, hinner⟩ := exists_of_map_kind_cons hmore
  obtain ⟨first, second, rfl, hfirst, hsecond⟩ := List.map_eq_append_iff.mp hinner
  obtain ⟨span, third, rfl, hthird⟩ := exists_of_map_kind_cons hsecond
  have hsettled := hfits.settled (by decide)
  have hrunp := hparams items stack start [] first (third ++ rest) ⟨.punct .closeParen, span⟩ hfirst
    rfl
  obtain ⟨b, hb, hrunb⟩ := hbody items (.lambdaBody start params :: stack) .operand third rest
    (.inl rfl) hthird ⟨fun _ => Nat.le_refl _, hfits.settled, hfits.noElse⟩
  refine ⟨.lambda (start.merge b.span) () params b, ?_, ?_⟩
  · rw [Expr.bare, Expr.bare, hb]
  · rw [List.cons_append, run_begin hpoint rfl, List.cons_append, Config.run_cons_of_ok rfl,
      List.append_assoc, List.cons_append, hrunp]
    exact hrunb.trans (run_value hsettled rfl)

theorem readAs_call {s : Span} {callee : Tree} {args : List Tree} {xs ws : List TokenKind}
    (hcallee : ReadAs names ending Expr.closed callee xs)
    (hargs : Means names ending (.list .comma args) ws) :
    ReadAs names ending Expr.closed (.call s callee args)
      (xs ++ .punct .openParen :: (ws ++ [.punct .closeParen])) := by
  intro items stack point tokens rest hpoint htokens hfits
  obtain ⟨first, second, rfl, hfirst, hsecond⟩ := List.map_eq_append_iff.mp htokens
  -- a callee is closed, so that anything may stand behind it
  obtain ⟨f, hf, hrunf⟩ := hcallee items stack point first (second ++ rest) hpoint hfirst
    (fits_closed _ _)
  obtain ⟨found, span, hfound, hrun⟩ := run_args hargs items stack f rest hsecond
  refine ⟨.call span f found, ?_, ?_⟩
  · rw [Expr.bare, Expr.bare, hf, Expr.bareAll_eq_map, Expr.bareAll_eq_map, hfound]
  · rw [List.append_assoc, hrunf, hrun]

theorem readAs_seq {s : Span} {trees : List Tree} {ws : List TokenKind} (htrees : 2 ≤ trees.length)
    (h : Means names ending (.list .semicolon trees) ws) :
    ReadAs names ending Expr.closed (.seq s trees)
      (.punct .openBrace :: (ws ++ [.punct .closeBrace])) := by
  intro items stack point tokens rest hpoint htokens hfits
  obtain ⟨found, span, hfound, hrun⟩ := run_block h items stack rest hpoint htokens
  have hlength : found.length = trees.length := by
    rw [← List.length_map (f := Expr.bare), hfound, List.length_map]
  -- a block of two items or more is a sequence
  rcases found with _ | ⟨first, _ | ⟨second, others⟩⟩
  · rw [List.length_nil] at hlength
    omega
  · rw [List.length_singleton] at hlength
    omega
  · refine ⟨.seq span (first :: second :: others), ?_, hrun⟩
    rw [Expr.bare, Expr.bare, Expr.bareAll_eq_map, Expr.bareAll_eq_map, hfound]

theorem readAs_block {least : Nat} {tree : Tree} {ws : List TokenKind}
    (h : Means names ending (.list .semicolon [tree]) ws) :
    ReadAs names ending least tree (.punct .openBrace :: (ws ++ [.punct .closeBrace])) := by
  intro items stack point tokens rest hpoint htokens hfits
  obtain ⟨found, span, hfound, hrun⟩ := run_block h items stack rest hpoint htokens
  obtain ⟨item, rfl, hitem⟩ := List.map_eq_singleton_iff.mp hfound
  exact ⟨item, hitem, hrun⟩

theorem means_noItem (separator : Punct) : Means names ending (.list separator []) [] := by
  intro tokens rest place before htokens
  cases List.map_eq_nil_iff.mp htokens
  exact ⟨[], rfl, rfl⟩

theorem readAs_emptyBlock (s : Span) :
    ReadAs names ending Expr.closed (.bool s false) [.punct .openBrace, .punct .closeBrace] := by
  intro items stack point tokens rest hpoint htokens hfits
  obtain ⟨found, span, hfound, hrun⟩ := run_block (means_noItem .semicolon) items stack rest hpoint
    htokens
  cases List.map_eq_nil_iff.mp hfound
  exact ⟨.bool span false, rfl, hrun⟩

/-! ## Parameters -/

theorem means_lastParam (name : Name) : Means names ending (.params [name]) [.identifier name] := by
  intro items stack start before tokens rest close htokens hclose
  obtain ⟨⟨_, span⟩, rfl, rfl⟩ := List.map_eq_singleton_iff.mp htokens
  have hend : Config.feed names ⟨items, stack, .paramEnd start (name :: before)⟩ (some close) =
      .ok ⟨items, .lambdaBody start (name :: before).reverse :: stack, .operand⟩ := if_pos hclose
  rw [List.singleton_append, Config.run_cons_of_ok rfl, Config.run_cons_of_ok hend,
    List.reverse_cons]

theorem means_param (name : Name) {params : List Name} {us : List TokenKind}
    (hmore : Means names ending (.params params) us) :
    Means names ending (.params (name :: params)) (.identifier name :: .punct .comma :: us) := by
  intro items stack start before tokens rest close htokens hclose
  obtain ⟨span, tail, rfl, htail⟩ := exists_of_map_kind_cons htokens
  obtain ⟨comma, more, rfl, hrest⟩ := exists_of_map_kind_cons htail
  rw [List.cons_append, Config.run_cons_of_ok rfl, List.cons_append, Config.run_cons_of_ok rfl,
    hmore items stack start (name :: before) more rest close hrest hclose, List.reverse_cons,
    List.append_assoc, List.singleton_append]

variable (ending) in
/-- Every spelling is read as what it spells: by induction on the spelling. -/
theorem means_of_spells {phrase : Phrase} {ws : List TokenKind} (h : Spells names phrase ws) :
    Means names ending phrase ws := by
  induction h with
  | plain hleast h ih =>
    intro items stack point tokens rest hpoint htokens hfits
    exact ih items stack point tokens rest hpoint htokens (hfits.mono hleast)
  | paren least _ ih => exact readAs_paren ih
  | block least _ ih => exact readAs_block ih
  | number s value => exact readAs_leaf (.number · value) (fun _ _ _ => rfl) fun _ => rfl
  | string s contents =>
    exact readAs_leaf (.string · contents) (fun _ _ _ => rfl) fun _ => rfl
  | bool s value =>
    refine readAs_leaf (.bool · value) (fun _ _ _ => ?_) fun _ => rfl
    cases value <;> rfl
  | emptyBlock s => exact readAs_emptyBlock s
  | var s name => exact readAs_leaf (.var · name) (fun _ _ _ => rfl) fun _ => rfl
  | assign s t hn _ _ ihtarget ihvalue => exact readAs_assign hn ihtarget ihvalue
  | binary s hn _ _ ihleft ihright => exact readAs_binary hn ihleft ihright
  | ifThen s _ _ ihcondition ihthen => exact readAs_ifThen ihcondition ihthen
  | ifElse s _ _ _ ihcondition ihthen ihelse => exact readAs_ifElse ihcondition ihthen ihelse
  | loop s _ _ ihcondition ihbody => exact readAs_loop ihcondition ihbody
  | seq s hitems _ ih => exact readAs_seq hitems ih
  | lambda s _ _ ihparams ihbody => exact readAs_lambda ihparams ihbody
  | call s _ _ ihcallee ihargs => exact readAs_call ihcallee ihargs
  | withThen _ ih => exact means_withThen ih
  | withoutThen _ ih => exact means_withoutThen ih
  | noItem separator => exact means_noItem separator
  | lastItem _ ih => exact means_lastItem ih
  | item _ _ ih ihmore => exact means_item ih ihmore
  | noParam =>
    intro items stack start before tokens rest close htokens hclose
    cases List.map_eq_nil_iff.mp htokens
    refine Config.run_cons_of_ok ?_
    rw [Config.feed, Option.any_some, if_pos hclose, List.append_nil]
  | lastParam name => exact means_lastParam name
  | param name _ ih => exact means_param name ih

/-- The place of the expressions of a program. -/
def programPlace : ListPlace names .semicolon none where
  items before := before
  stack _ := []
  separator_ne := by decide
  bound_eq _ := rfl
  fits := ⟨fun _ => Nat.le_refl _, fun _ => settled_none 0, fun _ => rfl⟩
  behind_stop _ _ := rfl
  behind_separator _ _ _ := rfl

end Grammar

/-! ## Sources -/

/-- Reading undoes spelling: a source whose tokens spell some trees, one after the other, is a
program of exactly these trees, up to spans. -/
theorem parseSource_of_spells {source : String} {names names' : Interner} {tokens : List Token}
    {trees : List Tree} (hnames : names.Made) (hlex : lex source names = (.ok tokens, names'))
    (hspells : Spells names' (.list .semicolon trees) (tokens.map Token.kind)) :
    ∃ items, parseSource source names = (.ok (.seq (Grammar.programSpan items) items), names') ∧
      items.map Expr.bare = trees.map Expr.bare := by
  obtain ⟨offset, hscan⟩ := lex_eq_ok_iff.mp hlex
  obtain ⟨found, hfound, hrun⟩ := Grammar.means_of_spells (.ok offset) hspells tokens []
    Grammar.programPlace [] rfl
  refine ⟨found, ?_, hfound⟩
  refine (parseSource_eq_ok_iff hnames.consistent).mpr ⟨?_, by rw [hscan]⟩
  rw [List.append_nil, List.append_nil] at hrun
  rw [runSourceTokens, hscan]
  have hend : Grammar.Config.feed names' ⟨found.reverse, [], .item⟩ none =
      .ok ⟨found.reverse, [], .item⟩ := rfl
  refine hrun.trans ((Grammar.Config.run_nil_of_ok hend).trans ?_)
  rw [Grammar.Config.program, List.reverse_reverse]

/-- An assignment with brackets around an operand, a block around another and a last semicolon. -/
theorem parseSource_of_spells_assign :
    ∃ tokens names' items, lex "x = {a} * (a);" .fresh = (.ok tokens, names') ∧
      parseSource "x = {a} * (a);" .fresh =
        (.ok (.seq (Grammar.programSpan items) items), names') ∧
      items.map Expr.bare = [.assign .dummy ⟨1⟩
        (.binary .dummy .mul (.var .dummy ⟨3⟩) (.var .dummy ⟨3⟩))] := by
  obtain ⟨tokens, names', hlex⟩ : ∃ tokens names',
      lex "x = {a} * (a);" .fresh = (.ok tokens, names') := exists_eq_ok (by decide +kernel)
  have hkinds : ((lex "x = {a} * (a);" .fresh).1.toOption.getD []).map Token.kind =
      [.identifier ⟨1⟩, .operator ⟨2⟩, .punct .openBrace, .identifier ⟨3⟩, .punct .closeBrace,
        .operator ⟨4⟩, .punct .openParen, .identifier ⟨3⟩, .punct .closeParen,
        .punct .semicolon] := by
    with_unfolding_all rfl
  have hassign : (lex "x = {a} * (a);" .fresh).2.spelling ⟨2⟩ = "=" := by decide +kernel
  have hmul : (lex "x = {a} * (a);" .fresh).2.spelling ⟨4⟩ = BinaryOp.mul.symbol := by
    decide +kernel
  rw [hlex] at hkinds hassign hmul
  change tokens.map Token.kind = _ at hkinds
  have hvar : ∀ name, Spells names' (.operand 0 (.var .dummy name)) [.identifier name] :=
    fun name => .plain (Nat.zero_le _) (.var .dummy name)
  have hproduct : Spells names'
      (.plain (.binary .dummy .mul (.var .dummy ⟨3⟩) (.var .dummy ⟨3⟩))) _ :=
    .binary .dummy hmul (.block _ (.lastItem (hvar ⟨3⟩))) (.paren _ (hvar ⟨3⟩))
  have hassignment : Spells names' (.plain (.assign .dummy ⟨1⟩ _)) _ :=
    .assign .dummy .dummy hassign (.plain (by decide) (.var .dummy ⟨1⟩))
      (.plain (Nat.zero_le _) hproduct)
  have hprogram : Spells names' (.list .semicolon [.assign .dummy ⟨1⟩
      (.binary .dummy .mul (.var .dummy ⟨3⟩) (.var .dummy ⟨3⟩))]) (tokens.map Token.kind) := by
    rw [hkinds]
    exact .item (.plain (Nat.zero_le _) hassignment) (.noItem .semicolon)
  obtain ⟨items, hparse, hitems⟩ := parseSource_of_spells .fresh hlex hprogram
  exact ⟨tokens, names', items, hlex, hparse, hitems⟩

end LambdaScript
