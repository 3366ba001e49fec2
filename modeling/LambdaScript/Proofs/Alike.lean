import LambdaScript.Proofs.Descent
/-!
# What a step depends on

Whether a token fits does not depend on spans, on how strings are numbered, or on more of the trees
read so far than which of them are variables. Configurations that differ in nothing else are
`Alike`, and they stay alike when they are fed tokens of the same `Word` (`Grammar.alike_feed`). So
the tokens of two sources can be compared even if the sources were read with different interners.
-/

namespace LambdaScript

/-- A token without its span, strings in place of their numbers. -/
inductive Word where
  | number (value : Float)
  | string (contents : String)
  | identifier (name : String)
  | keyword (word : Keyword)
  | punct (mark : Punct)
  | operator (spelling : String)

/-- The word of a token. -/
def TokenKind.word (names : Interner) : TokenKind → Word
  | number value => .number value
  | string contents => .string (names.spelling contents)
  | identifier name => .identifier (names.spelling name)
  | keyword word => .keyword word
  | punct mark => .punct mark
  | operator spelling => .operator (names.spelling spelling)

/-- The words of tokens. -/
def wordsOf (names : Interner) (tokens : List Token) : List Word :=
  tokens.map fun t => t.kind.word names

theorem SpelledAlike.word_eq {names later : Interner} {kind : TokenKind}
    (h : SpelledAlike names later kind) : kind.word later = kind.word names := by
  cases kind with
  | number | keyword | punct => rfl
  | string name | identifier name | operator name => simp only [TokenKind.word, h name rfl]

/-- The tree is a variable, so that it may stand left of `=`. -/
def Expr.isVar {ι : Type} : Expr ι → Bool
  | var .. => true
  | _ => false

namespace Grammar

/-- Tokens of the same word, under different interners. -/
inductive TokenAlike (names names' : Interner) : Token → Token → Prop where
  | number (value : Float) (s s' : Span) :
      TokenAlike names names' ⟨.number value, s⟩ ⟨.number value, s'⟩
  | string (n n' : Name) (s s' : Span) : TokenAlike names names' ⟨.string n, s⟩ ⟨.string n', s'⟩
  | identifier (n n' : Name) (s s' : Span) :
      TokenAlike names names' ⟨.identifier n, s⟩ ⟨.identifier n', s'⟩
  | keyword (word : Keyword) (s s' : Span) :
      TokenAlike names names' ⟨.keyword word, s⟩ ⟨.keyword word, s'⟩
  | punct (mark : Punct) (s s' : Span) : TokenAlike names names' ⟨.punct mark, s⟩ ⟨.punct mark, s'⟩
  | operator (n n' : Name) (s s' : Span) (h : names'.spelling n' = names.spelling n) :
      TokenAlike names names' ⟨.operator n, s⟩ ⟨.operator n', s'⟩

theorem TokenAlike.of_word_eq {names names' : Interner} {t t' : Token}
    (h : t'.kind.word names' = t.kind.word names) : TokenAlike names names' t t' := by
  obtain ⟨kind, s⟩ := t
  obtain ⟨kind', s'⟩ := t'
  cases kind <;> cases kind' <;> simp only [TokenKind.word, reduceCtorEq, Word.number.injEq,
    Word.keyword.injEq, Word.punct.injEq, Word.operator.injEq] at h
  · exact h ▸ .number _ _ _
  · exact .string _ _ _ _
  · exact .identifier _ _ _ _
  · exact h ▸ .keyword _ _ _
  · exact h ▸ .punct _ _ _
  · exact .operator _ _ _ _ h

/-- Tokens of the same word, or the end of both sources. -/
inductive LookAlike (names names' : Interner) : Option Token → Option Token → Prop where
  | none : LookAlike names names' none none
  | some {t t' : Token} (h : TokenAlike names names' t t') :
      LookAlike names names' (some t) (some t')

/-- Frames of the same form, with a variable left of `=` in both or in none. -/
inductive Frame.Alike : Frame → Frame → Prop where
  | operand (c : Connective) {left left' : Tree} (h : left'.isVar = left.isVar) :
      Alike (.operand c left) (.operand c left')
  | paren : Alike .paren .paren
  /-- A block of a single variable is that variable. -/
  | block (s s' : Span) {before before' : List Tree}
      (h : before'.map Expr.isVar = before.map Expr.isVar) :
      Alike (.block s before) (.block s' before')
  | args (f f' : Tree) (s s' : Span) (before before' : List Tree) :
      Alike (.args f s before) (.args f' s' before')
  | ifCondition (s s' : Span) : Alike (.ifCondition s) (.ifCondition s')
  | thenBranch (s s' : Span) (e e' : Tree) : Alike (.thenBranch s e) (.thenBranch s' e')
  | elseBranch (s s' : Span) (e e' b b' : Tree) : Alike (.elseBranch s e b) (.elseBranch s' e' b')
  | loopCondition (s s' : Span) : Alike (.loopCondition s) (.loopCondition s')
  | loopBody (s s' : Span) (e e' : Tree) : Alike (.loopBody s e) (.loopBody s' e')
  | lambdaBody (s s' : Span) (ps ps' : List Name) : Alike (.lambdaBody s ps) (.lambdaBody s' ps')

/-- Stacks of as many frames, each alike. -/
inductive StackAlike : List Frame → List Frame → Prop where
  | nil : StackAlike [] []
  | cons {frame frame' : Frame} {stack stack' : List Frame} (h : frame.Alike frame')
      (hs : StackAlike stack stack') : StackAlike (frame :: stack) (frame' :: stack')

/-- The same place, behind a variable in both or in none. -/
inductive Point.Alike : Point → Point → Prop where
  | operand : Alike .operand .operand
  | item : Alike .item .item
  | value {tree tree' : Tree} (h : tree'.isVar = tree.isVar) : Alike (.value tree) (.value tree')
  | paramList (s s' : Span) : Alike (.paramList s) (.paramList s')
  | param (s s' : Span) (ps ps' : List Name) : Alike (.param s ps) (.param s' ps')
  | paramEnd (s s' : Span) (ps ps' : List Name) : Alike (.paramEnd s ps) (.paramEnd s' ps')

/-- Configurations from which the same words are accepted. -/
structure Config.Alike (c c' : Config) : Prop where
  stack : StackAlike c.stack c'.stack
  point : c.point.Alike c'.point

/-- Both steps succeed, with configurations that are alike, or neither does. -/
def ResultAlike : Except Complaint Config → Except Complaint Config → Prop
  | .ok c, .ok c' => c.Alike c'
  | .error _, .error _ => True
  | _, _ => False

/-- The same of steps that may not apply. -/
def OptionAlike : Option Config → Option Config → Prop
  | some c, some c' => c.Alike c'
  | none, none => True
  | _, _ => False

section

variable {names names' : Interner} {items items' : List Tree} {stack stack' : List Frame}
  {look look' : Option Token}

theorem LookAlike.any_isPunct (h : LookAlike names names' look look') (p : Punct) :
    look'.any (·.isPunct p) = look.any (·.isPunct p) := by
  cases h with
  | none => rfl
  | some h => cases h <;> rfl

theorem LookAlike.any_isKeyword (h : LookAlike names names' look look') (k : Keyword) :
    look'.any (·.isKeyword k) = look.any (·.isKeyword k) := by
  cases h with
  | none => rfl
  | some h => cases h <;> rfl

theorem TokenAlike.connective?_eq {t t' : Token} (h : TokenAlike names names' t t') :
    connective? names' t' = connective? names t := by
  cases h with
  | operator n n' s s' h =>
    show Connective.ofSymbol? (names'.spelling n') = Connective.ofSymbol? (names.spelling n)
    rw [h]
  | _ => rfl

theorem StackAlike.bound_eq (h : StackAlike stack stack') : bound stack' = bound stack := by
  cases h with
  | nil => rfl
  | cons h => cases h <;> rfl

/-! ## One token -/

theorem alike_begin (hs : StackAlike stack stack') (hlook : LookAlike names names' look look') :
    ResultAlike (begin items stack look) (begin items' stack' look') := by
  cases hlook with
  | none => trivial
  | some h =>
    cases h with
    | number | string | identifier => exact ⟨hs, .value rfl⟩
    | operator => trivial
    | keyword word s s' =>
      cases word with
      | thenWord | elseWord => trivial
      | trueWord | falseWord => exact ⟨hs, .value rfl⟩
      | lambdaWord => exact ⟨hs, .paramList s s'⟩
      | ifWord => exact ⟨.cons (.ifCondition s s') hs, .operand⟩
      | whileWord => exact ⟨.cons (.loopCondition s s') hs, .operand⟩
    | punct mark s s' =>
      cases mark with
      | openParen => exact ⟨.cons .paren hs, .operand⟩
      | openBrace => exact ⟨.cons (.block s s' rfl) hs, .item⟩
      | _ => trivial

/-- Blocks are variables alike. -/
theorem isVar_blockTree {before before' : List Tree} (span span' : Span)
    (h : before'.map Expr.isVar = before.map Expr.isVar) :
    (blockTree span' before'.reverse).isVar = (blockTree span before.reverse).isVar := by
  have hreverse : before'.reverse.map Expr.isVar = before.reverse.map Expr.isVar := by
    rw [List.map_reverse, List.map_reverse, h]
  generalize before.reverse = xs at hreverse ⊢
  generalize before'.reverse = ys at hreverse ⊢
  rcases xs with _ | ⟨x, _ | ⟨x', xs⟩⟩ <;> rcases ys with _ | ⟨y, _ | ⟨y', ys⟩⟩ <;>
    simp only [List.map_cons, List.map_nil, List.cons.injEq, reduceCtorEq, and_false] at hreverse
  · rfl
  · exact hreverse.1
  · rfl

theorem alike_close (hs : StackAlike stack stack') (hlook : LookAlike names names' look look') :
    OptionAlike (close? items stack look) (close? items' stack' look') := by
  have hpunct := fun p => hlook.any_isPunct p
  cases hs with
  | nil =>
    cases hlook with
    | none => exact ⟨.nil, .item⟩
    | some => trivial
  | cons h hs =>
    cases hlook with
    | none => cases h <;> trivial
    | @some t t' ht =>
      cases h with
      | block s s' h =>
        have hbrace : t'.isPunct .closeBrace = t.isPunct .closeBrace := hpunct .closeBrace
        simp only [close?, hbrace]
        split
        · exact ⟨hs, .value (isVar_blockTree _ _ h)⟩
        · trivial
      | args f f' s s' before before' =>
        have hparen : t'.isPunct .closeParen = t.isPunct .closeParen := hpunct .closeParen
        simp only [close?, hparen]
        split
        · exact ⟨hs, .value rfl⟩
        · trivial
      | _ => trivial

/-- A step that may not apply, and what is done where it does not. -/
theorem alike_orElse {o o' : Option Config} {next next' : Except Complaint Config} :
    OptionAlike o o' → ResultAlike next next' →
      ResultAlike (match o with | some c => .ok c | none => next)
        (match o' with | some c => .ok c | none => next') := by
  intro h hnext
  cases o <;> cases o'
  · exact hnext
  · exact h.elim
  · exact h.elim
  · exact h

theorem alike_behindItem (separator : Punct) (hs : StackAlike stack stack')
    (hlook : LookAlike names names' look look') :
    ResultAlike (behindItem items stack separator look)
      (behindItem items' stack' separator look') := by
  refine alike_orElse (alike_close hs hlook) ?_
  rw [hlook.any_isPunct]
  split
  · exact ⟨hs, .item⟩
  · trivial

theorem alike_behindCondition (hs : StackAlike stack stack')
    (hlook : LookAlike names names' look look') :
    ResultAlike (behindCondition items stack look) (behindCondition items' stack' look') := by
  rw [behindCondition, behindCondition, hlook.any_isPunct, hlook.any_isKeyword]
  split
  · exact alike_begin hs hlook
  split
  · exact ⟨hs, .operand⟩
  · trivial

theorem alike_extend {value value' : Tree} (hvalue : value'.isVar = value.isVar)
    (hs : StackAlike stack stack') (hlook : LookAlike names names' look look') :
    OptionAlike (extend? names items stack value look)
      (extend? names' items' stack' value' look') := by
  cases hlook with
  | none => trivial
  | @some t t' ht =>
    have hparen : t'.isPunct .openParen = t.isPunct .openParen :=
      (LookAlike.some ht).any_isPunct .openParen
    rw [extend?, extend?, hparen, ht.connective?_eq, hs.bound_eq]
    split
    · exact ⟨.cons (.args _ _ _ _ _ _) hs, .item⟩
    split
    · split
      · trivial
      · exact ⟨.cons (.operand _ hvalue) hs, .operand⟩
    · trivial

theorem alike_extendOr {value value' : Tree} {next next' : Except Complaint Config}
    (hvalue : value'.isVar = value.isVar) (hs : StackAlike stack stack')
    (hlook : LookAlike names names' look look') (hnext : ResultAlike next next') :
    ResultAlike (extendOr names items look stack value next)
      (extendOr names' items' look' stack' value' next') :=
  alike_orElse (alike_extend hvalue hs hlook) hnext

/-- Only a variable can be assigned to. -/
theorem join_assignment_of_isVar {left : Tree} (right : Tree) (h : left.isVar = true) :
    ∃ whole, join .assignment left right = .ok whole ∧ whole.isVar = false := by
  cases left with
  | var => exact ⟨_, rfl, rfl⟩
  | _ => contradiction

theorem join_assignment_of_not_isVar {left : Tree} (right : Tree) (h : left.isVar = false) :
    join .assignment left right = .error (.badTarget left.span) := by
  cases left with
  | var => contradiction
  | _ => rfl

/-- Two operands are joined on both sides, or neither side has a variable left of `=`. -/
theorem join_alike {c : Connective} {left left' right right' : Tree}
    (h : left'.isVar = left.isVar) :
    (∃ whole whole', join c left right = .ok whole ∧ join c left' right' = .ok whole' ∧
      whole'.isVar = whole.isVar) ∨
    (∃ e e', join c left right = .error e ∧ join c left' right' = .error e') := by
  cases c with
  | binary op => exact .inl ⟨_, _, rfl, rfl, rfl⟩
  | assignment =>
    cases hleft : left.isVar with
    | true =>
      obtain ⟨whole, hjoin, hwhole⟩ := join_assignment_of_isVar right hleft
      obtain ⟨whole', hjoin', hwhole'⟩ := join_assignment_of_isVar right' (h.trans hleft)
      exact .inl ⟨whole, whole', hjoin, hjoin', hwhole'.trans hwhole.symm⟩
    | false =>
      exact .inr ⟨_, _, join_assignment_of_not_isVar right hleft,
        join_assignment_of_not_isVar right' (h.trans hleft)⟩

theorem alike_complete {value value' : Tree} (hvalue : value'.isVar = value.isVar)
    (hs : StackAlike stack stack') (hlook : LookAlike names names' look look') :
    ResultAlike (complete names items look stack value)
      (complete names' items' look' stack' value') := by
  induction hs generalizing value value' with
  | nil => exact alike_behindItem .semicolon .nil hlook
  | @cons frame frame' stack stack' h hs ih =>
    -- constructs that are complete in both become operands that are alike
    have hwhole : ∀ whole whole' : Tree, whole'.isVar = whole.isVar →
        ResultAlike (extendOr names items look stack whole (complete names items look stack whole))
          (extendOr names' items' look' stack' whole'
            (complete names' items' look' stack' whole')) :=
      fun whole whole' h => alike_extendOr h hs hlook (ih h)
    cases h with
    | operand c h =>
      rw [complete, complete]
      rcases join_alike (c := c) h with ⟨whole, whole', hjoin, hjoin', hvar⟩ |
        ⟨e, e', hjoin, hjoin'⟩
      · rw [hjoin, hjoin']
        exact hwhole whole whole' hvar
      · rw [hjoin, hjoin']
        trivial
    | paren =>
      rw [complete, complete, hlook.any_isPunct]
      split
      · exact ⟨hs, .value hvalue⟩
      · trivial
    | block s s' h =>
      refine alike_behindItem .semicolon (.cons (.block s s' ?_) hs) hlook
      rw [List.map_cons, List.map_cons, hvalue, h]
    | args f f' s s' before before' =>
      exact alike_behindItem .comma (.cons (.args _ _ _ _ _ _) hs) hlook
    | ifCondition s s' => exact alike_behindCondition (.cons (.thenBranch _ _ _ _) hs) hlook
    | thenBranch s s' e e' =>
      rw [complete, complete, hlook.any_isKeyword]
      split
      · exact ⟨.cons (.elseBranch _ _ _ _ _ _) hs, .operand⟩
      · exact hwhole _ _ rfl
    | elseBranch => exact hwhole _ _ rfl
    | loopCondition s s' => exact alike_behindCondition (.cons (.loopBody _ _ _ _) hs) hlook
    | loopBody => exact hwhole _ _ rfl
    | lambdaBody => exact hwhole _ _ rfl

/-- One step: whether a token fits is the same for configurations that are alike, and they stay
alike. -/
theorem alike_feed {c c' : Config} (h : c.Alike c') (hlook : LookAlike names names' look look') :
    ResultAlike (c.feed names look) (c'.feed names' look') := by
  obtain ⟨items, stack, point⟩ := c
  obtain ⟨items', stack', point'⟩ := c'
  obtain ⟨hs, hpoint⟩ := h
  cases hpoint with
  | operand => exact alike_begin hs hlook
  | item => exact alike_orElse (alike_close hs hlook) (alike_begin hs hlook)
  | value hvalue => exact alike_extendOr hvalue hs hlook (alike_complete hvalue hs hlook)
  | paramList s s' =>
    rw [Config.feed, Config.feed, hlook.any_isPunct]
    split
    · exact ⟨hs, .param _ _ _ _⟩
    · trivial
  | param s s' ps ps' =>
    rw [Config.feed, Config.feed, hlook.any_isPunct]
    split
    · exact ⟨.cons (.lambdaBody _ _ _ _) hs, .operand⟩
    · cases hlook with
      | none => trivial
      | some ht =>
        cases ht with
        | identifier => exact ⟨hs, .paramEnd _ _ _ _⟩
        | _ => trivial
  | paramEnd s s' ps ps' =>
    rw [Config.feed, Config.feed, hlook.any_isPunct, hlook.any_isPunct]
    split
    · exact ⟨.cons (.lambdaBody _ _ _ _) hs, .operand⟩
    split
    · exact ⟨hs, .param _ _ _ _⟩
    · trivial

end

end Grammar

end LambdaScript
