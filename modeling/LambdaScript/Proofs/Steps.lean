import LambdaScript.Proofs.Pushdown
/-!
# What one step can do

Every step of the machine is one of those that `Step` lists (`step_of_feed`). An invariant of the
machine is then shown by induction on the step, without a look into the functions of the machine.

A token behind an operand can complete several constructs at once, one inside the other, before it
is taken: this is `Step.wrap`, the one constructor that is recursive.
-/

namespace LambdaScript

namespace Grammar

/-- A token with which an operand begins, what it opens and the place behind it. -/
inductive Begins : Token → List Frame → Point → Prop
  | paren (span : Span) : Begins ⟨.punct .openParen, span⟩ [.paren] .operand
  | block (span : Span) : Begins ⟨.punct .openBrace, span⟩ [.block span []] .item
  | ifWord (span : Span) : Begins ⟨.keyword .ifWord, span⟩ [.ifCondition span] .operand
  | whileWord (span : Span) : Begins ⟨.keyword .whileWord, span⟩ [.loopCondition span] .operand
  | lambdaWord (span : Span) : Begins ⟨.keyword .lambdaWord, span⟩ [] (.paramList span)
  | trueWord (span : Span) : Begins ⟨.keyword .trueWord, span⟩ [] (.value (.bool span true))
  | falseWord (span : Span) : Begins ⟨.keyword .falseWord, span⟩ [] (.value (.bool span false))
  | identifier (name : Name) (span : Span) :
      Begins ⟨.identifier name, span⟩ [] (.value (.var span name))
  | number (value : Float) (span : Span) :
      Begins ⟨.number value, span⟩ [] (.value (.number span value))
  | string (contents : Name) (span : Span) :
      Begins ⟨.string contents, span⟩ [] (.value (.string span contents))

/-- What closes the innermost list; the source ends where no construct is open. -/
inductive ClosesList : List Frame → Option Token → List Frame → Point → Prop
  | block (start : Span) (before : List Tree) (stack : List Frame) (span : Span) :
      ClosesList (.block start before :: stack) (some ⟨.punct .closeBrace, span⟩) stack
        (.value (blockTree (start.merge span) before.reverse))
  | args (callee : Tree) (start : Span) (before : List Tree) (stack : List Frame) (span : Span) :
      ClosesList (.args callee start before :: stack) (some ⟨.punct .closeParen, span⟩) stack
        (.value (.call (callee.span.merge (start.merge span)) callee before.reverse))
  | program : ClosesList [] none [] .item

/-- An operand is one more item of the innermost list, and this is what separates its items. -/
inductive Adds : List Tree → List Frame → Tree → Punct → List Tree → List Frame → Prop
  | program (items : List Tree) (value : Tree) : Adds items [] value .semicolon (value :: items) []
  | block (items : List Tree) (start : Span) (before : List Tree) (stack : List Frame)
      (value : Tree) :
      Adds items (.block start before :: stack) value .semicolon items
        (.block start (value :: before) :: stack)
  | args (items : List Tree) (callee : Tree) (start : Span) (before : List Tree)
      (stack : List Frame) (value : Tree) :
      Adds items (.args callee start before :: stack) value .comma items
        (.args callee start (value :: before) :: stack)

/-- An operand is the condition of a construct, whose first branch or body is next. -/
inductive Heads : Frame → Tree → Frame → Prop
  | ifCondition (start : Span) (condition : Tree) :
      Heads (.ifCondition start) condition (.thenBranch start condition)
  | loopCondition (start : Span) (condition : Tree) :
      Heads (.loopCondition start) condition (.loopBody start condition)

/-- An operand is the last part of a construct, which comes to this tree. -/
inductive Wraps : Frame → Tree → Tree → Prop
  | operand {c : Connective} {left value whole : Tree} (h : join c left value = .ok whole) :
      Wraps (.operand c left) value whole
  | thenBranch (start : Span) (condition value : Tree) :
      Wraps (.thenBranch start condition) value (.ifThen (start.merge value.span) condition value)
  | elseBranch (start : Span) (condition thenBranch value : Tree) :
      Wraps (.elseBranch start condition thenBranch) value
        (.ifElse (start.merge value.span) condition thenBranch value)
  | loopBody (start : Span) (condition value : Tree) :
      Wraps (.loopBody start condition) value (.loop (start.merge value.span) condition value)
  | lambdaBody (start : Span) (params : List Name) (value : Tree) :
      Wraps (.lambdaBody start params) value (.lambda (start.merge value.span) () params value)

/-- The place behind the bracket in front of parameters, or behind a parameter. -/
inductive InParams (start : Span) (before : List Name) : Point → Prop
  | param : InParams start before (.param start before)
  | paramEnd : InParams start before (.paramEnd start before)

/-- One step of the machine, at a token or at the end of the source. -/
inductive Step (names : Interner) : Config → Option Token → Config → Prop
  | begin {items stack opened t point place} (hpoint : point.Ready) (h : Begins t opened place) :
      Step names ⟨items, stack, point⟩ (some t) ⟨items, opened ++ stack, place⟩
  | close {items stack stack' look place} (h : ClosesList stack look stack' place) :
      Step names ⟨items, stack, .item⟩ look ⟨items, stack', place⟩
  | closeBehind {items items' stack inner stack' value separator look place}
      (hadds : Adds items stack value separator items' inner)
      (h : ClosesList inner look stack' place) :
      Step names ⟨items, stack, .value value⟩ look ⟨items', stack', place⟩
  | separator {items items' stack stack' value separator} (span : Span)
      (h : Adds items stack value separator items' stack') :
      Step names ⟨items, stack, .value value⟩ (some ⟨.punct separator, span⟩)
        ⟨items', stack', .item⟩
  | wrap {items stack frame value whole look c} (h : Wraps frame value whole)
      (hstep : Step names ⟨items, stack, .value whole⟩ look c) :
      Step names ⟨items, frame :: stack, .value value⟩ look c
  | openArgs (items : List Tree) (stack : List Frame) (callee : Tree) (span : Span) :
      Step names ⟨items, stack, .value callee⟩ (some ⟨.punct .openParen, span⟩)
        ⟨items, .args callee span [] :: stack, .item⟩
  | connective {items stack left t c} (ht : connective? names t = some c)
      (hbound : bound stack < c.precedence) :
      Step names ⟨items, stack, .value left⟩ (some t) ⟨items, .operand c left :: stack, .operand⟩
  | closeParen (items : List Tree) (stack : List Frame) (value : Tree) (span : Span) :
      Step names ⟨items, .paren :: stack, .value value⟩ (some ⟨.punct .closeParen, span⟩)
        ⟨items, stack, .value value⟩
  | thenWord {items stack frame frame' condition} (span : Span) (h : Heads frame condition frame') :
      Step names ⟨items, frame :: stack, .value condition⟩ (some ⟨.keyword .thenWord, span⟩)
        ⟨items, frame' :: stack, .operand⟩
  | branchBlock {items stack frame frame' condition} (span : Span)
      (h : Heads frame condition frame') :
      Step names ⟨items, frame :: stack, .value condition⟩ (some ⟨.punct .openBrace, span⟩)
        ⟨items, .block span [] :: frame' :: stack, .item⟩
  | elseWord (items : List Tree) (stack : List Frame) (start : Span) (condition thenBranch : Tree)
      (span : Span) :
      Step names ⟨items, .thenBranch start condition :: stack, .value thenBranch⟩
        (some ⟨.keyword .elseWord, span⟩)
        ⟨items, .elseBranch start condition thenBranch :: stack, .operand⟩
  | openParams (items : List Tree) (stack : List Frame) (start span : Span) :
      Step names ⟨items, stack, .paramList start⟩ (some ⟨.punct .openParen, span⟩)
        ⟨items, stack, .param start []⟩
  | param (items : List Tree) (stack : List Frame) (start : Span) (before : List Name)
      (name : Name) (span : Span) :
      Step names ⟨items, stack, .param start before⟩ (some ⟨.identifier name, span⟩)
        ⟨items, stack, .paramEnd start (name :: before)⟩
  | comma (items : List Tree) (stack : List Frame) (start : Span) (before : List Name)
      (span : Span) :
      Step names ⟨items, stack, .paramEnd start before⟩ (some ⟨.punct .comma, span⟩)
        ⟨items, stack, .param start before⟩
  | closeParams {items stack start before point} (span : Span)
      (hpoint : InParams start before point) :
      Step names ⟨items, stack, point⟩ (some ⟨.punct .closeParen, span⟩)
        ⟨items, .lambdaBody start before.reverse :: stack, .operand⟩

variable {names : Interner} {items items' : List Tree} {stack stack' : List Frame}
  {look : Option Token} {value : Tree} {separator : Punct} {c c' : Config}

/-! ## The functions of the machine make such steps -/

theorem begins_of_begin (h : begin items stack look = .ok c') :
    ∃ t opened place, look = some t ∧ Begins t opened place ∧
      c' = ⟨items, opened ++ stack, place⟩ := by
  rcases look with _ | ⟨kind, span⟩
  · contradiction
  cases kind with
  | number value =>
    cases h
    exact ⟨_, _, _, rfl, .number value span, rfl⟩
  | string contents =>
    cases h
    exact ⟨_, _, _, rfl, .string contents span, rfl⟩
  | identifier name =>
    cases h
    exact ⟨_, _, _, rfl, .identifier name span, rfl⟩
  | operator name => contradiction
  | keyword word =>
    cases word with
    | thenWord | elseWord => contradiction
    | ifWord =>
      cases h
      exact ⟨_, _, _, rfl, .ifWord span, rfl⟩
    | whileWord =>
      cases h
      exact ⟨_, _, _, rfl, .whileWord span, rfl⟩
    | lambdaWord =>
      cases h
      exact ⟨_, _, _, rfl, .lambdaWord span, rfl⟩
    | trueWord =>
      cases h
      exact ⟨_, _, _, rfl, .trueWord span, rfl⟩
    | falseWord =>
      cases h
      exact ⟨_, _, _, rfl, .falseWord span, rfl⟩
  | punct mark =>
    cases mark with
    | openParen =>
      cases h
      exact ⟨_, _, _, rfl, .paren span, rfl⟩
    | openBrace =>
      cases h
      exact ⟨_, _, _, rfl, .block span, rfl⟩
    | _ => contradiction

theorem step_of_begin {point : Point} (hpoint : point.Ready)
    (h : begin items stack look = .ok c') : Step names ⟨items, stack, point⟩ look c' := by
  obtain ⟨t, opened, place, rfl, hbegins, rfl⟩ := begins_of_begin h
  exact .begin hpoint hbegins

theorem closesList_of_close? (h : close? items stack look = some c') :
    ∃ place, ClosesList stack look c'.stack place ∧ c' = ⟨items, c'.stack, place⟩ := by
  unfold close? at h
  split at h
  · next start before stack t =>
    split at h
    · next ht =>
      obtain ⟨kind, span⟩ := t
      cases Token.isPunct_iff.mp ht
      cases h
      exact ⟨_, .block start before stack span, rfl⟩
    · contradiction
  · next callee start before stack t =>
    split at h
    · next ht =>
      obtain ⟨kind, span⟩ := t
      cases Token.isPunct_iff.mp ht
      cases h
      exact ⟨_, .args callee start before stack span, rfl⟩
    · contradiction
  · cases h
    exact ⟨_, .program, rfl⟩
  · contradiction

theorem step_of_behindItem (hadds : Adds items stack value separator items' stack')
    (h : behindItem items' stack' separator look = .ok c') :
    Step names ⟨items, stack, .value value⟩ look c' := by
  unfold behindItem at h
  split at h
  · next hclose =>
    cases h
    obtain ⟨place, hcloses, hc⟩ := closesList_of_close? hclose
    rw [hc]
    exact .closeBehind hadds hcloses
  split at h
  · next hlook =>
    obtain ⟨span, rfl⟩ := Token.punct_of_any hlook
    cases h
    exact .separator span hadds
  · contradiction

theorem step_of_behindCondition {frame frame' : Frame} (hheads : Heads frame value frame')
    (h : behindCondition items (frame' :: stack) look = .ok c') :
    Step names ⟨items, frame :: stack, .value value⟩ look c' := by
  unfold behindCondition at h
  split at h
  · next hlook =>
    obtain ⟨span, rfl⟩ := Token.punct_of_any hlook
    cases h
    exact .branchBlock span hheads
  split at h
  · next hlook =>
    obtain ⟨span, rfl⟩ := Token.keyword_of_any hlook
    cases h
    exact .thenWord span hheads
  · contradiction

theorem step_of_extend? (h : extend? names items stack value look = some c') :
    Step names ⟨items, stack, .value value⟩ look c' := by
  rcases look with _ | ⟨kind, span⟩
  · contradiction
  rw [extend?] at h
  split at h
  · next ht =>
    cases Token.isPunct_iff.mp ht
    cases h
    exact .openArgs items stack value span
  split at h
  · next connective hconnective =>
    split at h
    · contradiction
    · next hbound =>
      cases h
      exact .connective hconnective (Nat.lt_of_not_le hbound)
  · contradiction

theorem step_of_extendOr {next : Except Complaint Config}
    (hnext : next = .ok c' → Step names ⟨items, stack, .value value⟩ look c')
    (h : extendOr names items look stack value next = .ok c') :
    Step names ⟨items, stack, .value value⟩ look c' := by
  unfold extendOr at h
  split at h
  · next hextend =>
    cases h
    exact step_of_extend? hextend
  · exact hnext h

theorem step_of_complete (h : complete names items look stack value = .ok c') :
    Step names ⟨items, stack, .value value⟩ look c' := by
  induction stack generalizing value with
  | nil => exact step_of_behindItem (.program items value) h
  | cons frame stack ih =>
    -- the construct is complete with the operand, and the token is for it or for one around it
    have hwrap : ∀ whole : Tree, Wraps frame value whole →
        extendOr names items look stack whole (complete names items look stack whole) = .ok c' →
        Step names ⟨items, frame :: stack, .value value⟩ look c' :=
      fun whole hwraps h => .wrap hwraps (step_of_extendOr (fun hnext => ih hnext) h)
    cases frame with
    | operand connective left =>
      rw [complete] at h
      split at h
      · next whole hjoin => exact hwrap whole (.operand hjoin) h
      · contradiction
    | paren =>
      rw [complete] at h
      split at h
      · next hlook =>
        obtain ⟨span, rfl⟩ := Token.punct_of_any hlook
        cases h
        exact .closeParen items stack value span
      · contradiction
    | block start before => exact step_of_behindItem (.block items start before stack value) h
    | args callee start before =>
      exact step_of_behindItem (.args items callee start before stack value) h
    | ifCondition start => exact step_of_behindCondition (.ifCondition start value) h
    | thenBranch start condition =>
      rw [complete] at h
      split at h
      · next hlook =>
        obtain ⟨span, rfl⟩ := Token.keyword_of_any hlook
        cases h
        exact .elseWord items stack start condition value span
      · exact hwrap _ (.thenBranch start condition value) h
    | elseBranch start condition branch =>
      exact hwrap _ (.elseBranch start condition branch value) h
    | loopCondition start => exact step_of_behindCondition (.loopCondition start value) h
    | loopBody start condition => exact hwrap _ (.loopBody start condition value) h
    | lambdaBody start params => exact hwrap _ (.lambdaBody start params value) h

theorem eq_of_identifier? {name : Name} (h : identifier? look = some name) :
    ∃ span, look = some ⟨.identifier name, span⟩ := by
  unfold identifier? at h
  split at h
  · cases h
    exact ⟨_, rfl⟩
  · contradiction

/-- The machine makes no other steps. -/
theorem step_of_feed (h : c.feed names look = .ok c') : Step names c look c' := by
  obtain ⟨items, stack, point⟩ := c
  cases point with
  | operand => exact step_of_begin (.inl rfl) h
  | item =>
    rw [Config.feed] at h
    split at h
    · next hclose =>
      cases h
      obtain ⟨place, hcloses, hc⟩ := closesList_of_close? hclose
      rw [hc]
      exact .close hcloses
    · exact step_of_begin (.inr rfl) h
  | value tree => exact step_of_extendOr (fun hnext => step_of_complete hnext) h
  | paramList start =>
    rw [Config.feed] at h
    split at h
    · next hlook =>
      obtain ⟨span, rfl⟩ := Token.punct_of_any hlook
      cases h
      exact .openParams items stack start span
    · contradiction
  | param start before =>
    rw [Config.feed] at h
    split at h
    · next hlook =>
      obtain ⟨span, rfl⟩ := Token.punct_of_any hlook
      cases h
      exact .closeParams span .param
    split at h
    · next name hname =>
      obtain ⟨span, rfl⟩ := eq_of_identifier? hname
      cases h
      exact .param items stack start before name span
    · contradiction
  | paramEnd start before =>
    rw [Config.feed] at h
    split at h
    · next hlook =>
      obtain ⟨span, rfl⟩ := Token.punct_of_any hlook
      cases h
      exact .closeParams span .paramEnd
    split at h
    · next hlook =>
      obtain ⟨span, rfl⟩ := Token.punct_of_any hlook
      cases h
      exact .comma items stack start before span
    · contradiction

/-! ## The end of the source -/

/-- Only between two expressions of a program can the source end. -/
theorem Step.eq_of_none (h : Step names c none c') : c'.stack = [] ∧ c'.point = .item := by
  generalize hlook : (none : Option Token) = look at h
  induction h with
  | close h | closeBehind _ h =>
    cases h with
    | program => exact ⟨rfl, rfl⟩
    | block | args => contradiction
  | wrap _ _ ih => exact ih hlook
  | _ => contradiction

end Grammar

end LambdaScript
