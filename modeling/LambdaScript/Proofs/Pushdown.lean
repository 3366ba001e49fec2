import LambdaScript.Grammar.Expression
/-!
# The grammar with its stack in the open

The functions of the grammar call one another; what is still open at some token is in their calls.
Here the same is data. A `Config` holds the expressions of the program that are complete, the
constructs that are open (`Frame`, innermost first) and the place reached in the innermost one
(`Point`). `Config.feed` takes one token, or the end of the source, and `Config.run` a whole list.

Facts about all programs are then facts about one step: what it keeps, and what can still follow.
-/

namespace LambdaScript

theorem Token.isPunct_iff {t : Token} {p : Punct} : t.isPunct p = true ↔ t.kind = .punct p := by
  unfold Token.isPunct
  split <;> simp_all

theorem Token.isKeyword_iff {t : Token} {k : Keyword} :
    t.isKeyword k = true ↔ t.kind = .keyword k := by
  unfold Token.isKeyword
  split <;> simp_all

/-- A test for punctuation that the next token passes. -/
theorem Token.punct_of_any {look : Option Token} {p : Punct}
    (h : look.any (·.isPunct p) = true) : ∃ span, look = some ⟨.punct p, span⟩ := by
  obtain ⟨⟨kind, span⟩, rfl, ht⟩ := (Option.any_eq_true _ look).mp h
  cases Token.isPunct_iff.mp ht
  exact ⟨span, rfl⟩

/-- A test for a reserved word that the next token passes. -/
theorem Token.keyword_of_any {look : Option Token} {k : Keyword}
    (h : look.any (·.isKeyword k) = true) : ∃ span, look = some ⟨.keyword k, span⟩ := by
  obtain ⟨⟨kind, span⟩, rfl, ht⟩ := (Option.any_eq_true _ look).mp h
  cases Token.isKeyword_iff.mp ht
  exact ⟨span, rfl⟩

namespace Grammar

/-- An open construct: what has been read of it, while its next part is read. -/
inductive Frame where
  /-- A left operand and what stands behind it. -/
  | operand (c : Connective) (left : Tree)
  | paren
  /-- A block and its complete items in reverse. -/
  | block (start : Span) (before : List Tree)
  /-- A call, the span of the bracket and the complete arguments in reverse. -/
  | args (callee : Tree) (start : Span) (before : List Tree)
  | ifCondition (start : Span)
  | thenBranch (start : Span) (condition : Tree)
  | elseBranch (start : Span) (condition thenBranch : Tree)
  | loopCondition (start : Span)
  | loopBody (start : Span) (condition : Tree)
  | lambdaBody (start : Span) (params : List Name)

/-- The place reached in the innermost open construct. -/
inductive Point where
  /-- An operand begins here. -/
  | operand
  /-- An item of a list begins here, or the list ends. -/
  | item
  /-- This has been read; more of it may follow. -/
  | value (tree : Tree)
  /-- The bracket in front of parameters is due. -/
  | paramList (start : Span)
  /-- A parameter is due, or the end of the parameters, which are held in reverse. -/
  | param (start : Span) (before : List Name)
  /-- A parameter has been read. -/
  | paramEnd (start : Span) (before : List Name)

/-- How far a program has been read. The complete expressions are held in reverse. -/
structure Config where
  items : List Tree
  stack : List Frame
  point : Point

/-- Why a token does not fit. -/
inductive Complaint where
  | noExpression
  | noPunct (p : Punct)
  | noKeyword (k : Keyword)
  | noParameter
  /-- The operand with this span stands left of `=` and is no variable. -/
  | badTarget (span : Span)

/-- The error for a token that does not fit, or for a source that ends too early. -/
def Complaint.report (names : Interner) (offset : Nat) : Complaint → Option Token → ParseError
  | noExpression, some t => ⟨.unexpectedToken (t.kind.describe names), t.span⟩
  | noExpression, none => ⟨.unexpectedEnd "expression", .point offset⟩
  | noPunct p, some t => ⟨.mismatch ("`" ++ toString p ++ "`") (t.kind.describe names), t.span⟩
  | noPunct p, none => ⟨.unexpectedEnd ("`" ++ toString p ++ "`"), .point offset⟩
  | noKeyword k, some t =>
    ⟨.mismatch ("keyword `" ++ k.spelling ++ "`") (t.kind.describe names), t.span⟩
  | noKeyword k, none => ⟨.unexpectedEnd ("keyword `" ++ k.spelling ++ "`"), .point offset⟩
  | noParameter, some t => ⟨.expectedParameterName (t.kind.describe names), t.span⟩
  | noParameter, none => ⟨.expectedParameterName "end of input", .point offset⟩
  | badTarget span, _ => ⟨.invalidAssignmentTarget, span⟩

/-! ## Connectives -/

namespace Connective

/-- The spelling of a connective. -/
def symbol : Connective → String
  | assignment => "="
  | binary op => op.symbol

theorem ofSymbol?_symbol (c : Connective) : ofSymbol? c.symbol = some c := by
  cases c with
  | assignment => rfl
  | binary op => cases op <;> rfl

theorem eq_symbol_of_ofSymbol? {s : String} {c : Connective} (h : ofSymbol? s = some c) :
    s = c.symbol := by
  unfold ofSymbol? at h
  split at h
  · next heq =>
    cases h
    exact heq
  · unfold BinaryOp.ofSymbol? at h
    split at h <;> cases h <;> rfl

end Connective

/-- The connective that a token spells, if it is an operator of the language. -/
def connective? (names : Interner) (t : Token) : Option Connective :=
  match t.kind with
  | .operator name => Connective.ofSymbol? (names.spelling name)
  | _ => none

theorem connective?_of_spelling {names : Interner} {n : Name} {c : Connective}
    (h : names.spelling n = c.symbol) (span : Span) :
    connective? names ⟨.operator n, span⟩ = some c := by
  show Connective.ofSymbol? (names.spelling n) = some c
  rw [h, Connective.ofSymbol?_symbol]

theorem operator_of_connective? {names : Interner} {t : Token} {c : Connective}
    (h : connective? names t = some c) :
    ∃ name span, t = ⟨.operator name, span⟩ ∧ names.spelling name = c.symbol := by
  obtain ⟨kind, span⟩ := t
  cases kind with
  | operator name => exact ⟨name, span, rfl, Connective.eq_symbol_of_ofSymbol? h⟩
  | _ => contradiction

/-! ## One token -/

/-- The name in an identifier token. -/
def identifier? : Option Token → Option Name
  | some ⟨.identifier name, _⟩ => some name
  | _ => none

/-- Two operands joined, if the left one fits. -/
def join (c : Connective) (left right : Tree) : Except Complaint Tree :=
  match c, left with
  | .binary op, left => .ok (.binary (left.span.merge right.span) op left right)
  | .assignment, .var span target => .ok (.assign (span.merge right.span) target right)
  | .assignment, left => .error (.badTarget left.span)

/-- The tree of a block with these items. -/
def blockTree (span : Span) : List Tree → Tree
  | [] => .bool span false
  | [item] => item
  | items => .seq span items

/-- Only what binds tighter than this is taken in by the operand that is being read. -/
def bound : List Frame → Nat
  | .operand c _ :: _ => c.rightBound
  | _ => 0

/-- A token with which an operand begins. -/
def begin (items : List Tree) (stack : List Frame) : Option Token → Except Complaint Config
  | none => .error .noExpression
  | some ⟨kind, span⟩ =>
    match kind with
    | .punct .openParen => .ok ⟨items, .paren :: stack, .operand⟩
    | .punct .openBrace => .ok ⟨items, .block span [] :: stack, .item⟩
    | .keyword .ifWord => .ok ⟨items, .ifCondition span :: stack, .operand⟩
    | .keyword .whileWord => .ok ⟨items, .loopCondition span :: stack, .operand⟩
    | .keyword .lambdaWord => .ok ⟨items, stack, .paramList span⟩
    | .keyword .trueWord => .ok ⟨items, stack, .value (.bool span true)⟩
    | .keyword .falseWord => .ok ⟨items, stack, .value (.bool span false)⟩
    | .identifier name => .ok ⟨items, stack, .value (.var span name)⟩
    | .number value => .ok ⟨items, stack, .value (.number span value)⟩
    | .string contents => .ok ⟨items, stack, .value (.string span contents)⟩
    | _ => .error .noExpression

/-- A token that makes an operand longer: the bracket of a list of arguments, or a connective that
binds tightly enough. -/
def extend? (names : Interner) (items : List Tree) (stack : List Frame) (value : Tree) :
    Option Token → Option Config
  | none => none
  | some t =>
    if t.isPunct .openParen then some ⟨items, .args value t.span [] :: stack, .item⟩
    else
      match connective? names t with
      | some c =>
        if c.precedence ≤ bound stack then none
        else some ⟨items, .operand c value :: stack, .operand⟩
      | none => none

/-- The list that is innermost, closed by a token. -/
def close? (items : List Tree) : List Frame → Option Token → Option Config
  | .block start before :: stack, some t =>
    if t.isPunct .closeBrace then
      some ⟨items, stack, .value (blockTree (start.merge t.span) before.reverse)⟩
    else none
  | .args callee start before :: stack, some t =>
    if t.isPunct .closeParen then
      let span := callee.span.merge (start.merge t.span)
      some ⟨items, stack, .value (.call span callee before.reverse)⟩
    else none
  | [], none => some ⟨items, [], .item⟩
  | _, _ => none

/-- Behind an item of the list that is innermost: its end, or a separator. -/
def behindItem (items : List Tree) (stack : List Frame) (separator : Punct)
    (look : Option Token) : Except Complaint Config :=
  match close? items stack look with
  | some c => .ok c
  | none =>
    if look.any (·.isPunct separator) then .ok ⟨items, stack, .item⟩
    else .error (.noPunct separator)

/-- Behind a condition: `then`, which may be missing before a block. -/
def behindCondition (items : List Tree) (stack : List Frame) (look : Option Token) :
    Except Complaint Config :=
  if look.any (·.isPunct .openBrace) then begin items stack look
  else if look.any (·.isKeyword .thenWord) then .ok ⟨items, stack, .operand⟩
  else .error (.noKeyword .thenWord)

/-- A token behind an operand: it makes the operand longer, or else it is for `next` to take. -/
def extendOr (names : Interner) (items : List Tree) (look : Option Token) (stack : List Frame)
    (value : Tree) (next : Except Complaint Config) : Except Complaint Config :=
  match extend? names items stack value look with
  | some c => .ok c
  | none => next

/-- The operand is complete, and the token belongs to a construct around it. -/
def complete (names : Interner) (items : List Tree) (look : Option Token) :
    List Frame → Tree → Except Complaint Config
  | [], value => behindItem (value :: items) [] .semicolon look
  | .operand c left :: stack, value =>
    match join c left value with
    | .ok whole => extendOr names items look stack whole (complete names items look stack whole)
    | .error complaint => .error complaint
  | .paren :: stack, value =>
    if look.any (·.isPunct .closeParen) then .ok ⟨items, stack, .value value⟩
    else .error (.noPunct .closeParen)
  | .block start before :: stack, value =>
    behindItem items (.block start (value :: before) :: stack) .semicolon look
  | .args callee start before :: stack, value =>
    behindItem items (.args callee start (value :: before) :: stack) .comma look
  | .ifCondition start :: stack, value =>
    behindCondition items (.thenBranch start value :: stack) look
  | .thenBranch start condition :: stack, value =>
    if look.any (·.isKeyword .elseWord) then
      .ok ⟨items, .elseBranch start condition value :: stack, .operand⟩
    else
      let whole := .ifThen (start.merge value.span) condition value
      extendOr names items look stack whole (complete names items look stack whole)
  | .elseBranch start condition thenBranch :: stack, value =>
    let whole := .ifElse (start.merge value.span) condition thenBranch value
    extendOr names items look stack whole (complete names items look stack whole)
  | .loopCondition start :: stack, value =>
    behindCondition items (.loopBody start value :: stack) look
  | .loopBody start condition :: stack, value =>
    let whole := .loop (start.merge value.span) condition value
    extendOr names items look stack whole (complete names items look stack whole)
  | .lambdaBody start params :: stack, value =>
    let whole := .lambda (start.merge value.span) () params value
    extendOr names items look stack whole (complete names items look stack whole)

/-- A token behind an operand. -/
def resume (names : Interner) (items : List Tree) (look : Option Token) (stack : List Frame)
    (value : Tree) : Except Complaint Config :=
  extendOr names items look stack value (complete names items look stack value)

/-! ## Whole lists -/

namespace Config

/-- Nothing has been read. -/
def start : Config := ⟨[], [], .item⟩

/-- The program, once it has been read to its end. -/
def program (c : Config) : Tree := .seq (programSpan c.items.reverse) c.items.reverse

/-- The configuration behind a token, or at the end of the source. -/
def feed (names : Interner) : Config → Option Token → Except Complaint Config
  | ⟨items, stack, .operand⟩, look => begin items stack look
  | ⟨items, stack, .item⟩, look =>
    match close? items stack look with
    | some c => .ok c
    | none => begin items stack look
  | ⟨items, stack, .value tree⟩, look => resume names items look stack tree
  | ⟨items, stack, .paramList start⟩, look =>
    if look.any (·.isPunct .openParen) then .ok ⟨items, stack, .param start []⟩
    else .error (.noPunct .openParen)
  | ⟨items, stack, .param start before⟩, look =>
    if look.any (·.isPunct .closeParen) then
      .ok ⟨items, .lambdaBody start before.reverse :: stack, .operand⟩
    else
      match identifier? look with
      | some name => .ok ⟨items, stack, .paramEnd start (name :: before)⟩
      | none => .error .noParameter
  | ⟨items, stack, .paramEnd start before⟩, look =>
    if look.any (·.isPunct .closeParen) then
      .ok ⟨items, .lambdaBody start before.reverse :: stack, .operand⟩
    else if look.any (·.isPunct .comma) then .ok ⟨items, stack, .param start before⟩
    else .error (.noPunct .comma)

/-- A whole list of tokens and how it ends: the program or the first error, and the tokens not
taken. -/
def run (names : Interner) (ending : Except LexError Nat) :
    Config → List Token → Except SyntaxError Tree × List Token
  | c, t :: rest =>
    match c.feed names (some t) with
    | .ok c => run names ending c rest
    | .error complaint =>
      (.error (.grammatical (complaint.report names 0 (some t))), t :: rest)
  | c, [] =>
    match ending with
    | .error e => (.error (.lexical e), [])
    | .ok offset =>
      match c.feed names none with
      | .ok c => (.ok c.program, [])
      | .error complaint => (.error (.grammatical (complaint.report names offset none)), [])

variable {names : Interner} {ending : Except LexError Nat} {c c' : Config} {t : Token}
  {rest : List Token} {complaint : Complaint} {offset : Nat}

theorem run_cons_of_ok (h : c.feed names (some t) = .ok c') :
    c.run names ending (t :: rest) = c'.run names ending rest := by
  simp only [run, h]

theorem run_cons_of_error (h : c.feed names (some t) = .error complaint) :
    c.run names ending (t :: rest) =
      (.error (.grammatical (complaint.report names 0 (some t))), t :: rest) := by
  simp only [run, h]

theorem run_nil_of_ok (h : c.feed names none = .ok c') :
    c.run names (.ok offset) [] = (.ok c'.program, []) := by
  simp only [run, h]

theorem run_nil_of_error (h : c.feed names none = .error complaint) :
    c.run names (.ok offset) [] =
      (.error (.grammatical (complaint.report names offset none)), []) := by
  simp only [run, h]

/-- A program is accepted only at the end of its source. -/
theorem ending_of_run_ok {tokens : List Token} {tree : Tree}
    (h : c.run names ending tokens = (.ok tree, rest)) : ∃ offset, ending = .ok offset := by
  induction tokens generalizing c with
  | nil =>
    cases ending with
    | error e =>
      simp only [run] at h
      cases h
    | ok offset => exact ⟨offset, rfl⟩
  | cons t tokens ih =>
    rw [run] at h
    split at h
    · exact ih h
    · cases h

/-- A lexical error is told only where the tokens end with it. -/
theorem ending_of_run_lexical {tokens : List Token} {e : LexError}
    (h : c.run names ending tokens = (.error (.lexical e), rest)) : ending = .error e := by
  induction tokens generalizing c with
  | nil =>
    cases ending with
    | error e =>
      simp only [run] at h
      cases h
      rfl
    | ok offset =>
      rw [run] at h
      split at h <;> cases h
  | cons t tokens ih =>
    rw [run] at h
    split at h
    · exact ih h
    · cases h

/-- What a run comes to depends on the configuration only through its next step. -/
theorem run_congr {tokens : List Token}
    (h : c'.feed names tokens.head? = c.feed names tokens.head?) :
    c'.run names ending tokens = c.run names ending tokens := by
  cases tokens with
  | nil =>
    rw [List.head?_nil] at h
    simp only [run, h]
  | cons t rest =>
    rw [List.head?_cons] at h
    simp only [run, h]

end Config

/-! ## Tokens that make no operand longer -/

/-- The next token is no bracket of arguments, and no connective that binds tighter than `b`. -/
def Settled (names : Interner) (b : Nat) (look : Option Token) : Prop :=
  ∀ t, look = some t →
    t.isPunct .openParen = false ∧ ∀ c, connective? names t = some c → c.precedence ≤ b

theorem extend?_eq_none {names : Interner} {items : List Tree} {stack : List Frame}
    {value : Tree} {look : Option Token} (h : Settled names (bound stack) look) :
    extend? names items stack value look = none := by
  cases look with
  | none => rfl
  | some t =>
    obtain ⟨hparen, hconnective⟩ := h t rfl
    rw [extend?, hparen]
    cases hc : connective? names t with
    | none => rfl
    | some c => simp [hconnective c hc]

/-- Punctuation other than the bracket of arguments makes no operand longer. -/
theorem settled_of_isPunct {names : Interner} {t : Token} {p : Punct} {b : Nat}
    (ht : t.isPunct p = true)
    (hp : p ≠ .openParen) : Settled names b (some t) := by
  obtain ⟨kind, span⟩ := t
  intro t' heq
  cases heq
  cases kind <;> simp_all [Token.isPunct, connective?]

/-- An operand that the next token cannot make longer is complete. -/
theorem resume_eq_complete {names : Interner} {items : List Tree} {stack : List Frame}
    {value : Tree} {look : Option Token} (h : Settled names (bound stack) look) :
    resume names items look stack value = complete names items look stack value := by
  rw [resume, extendOr, extend?_eq_none h]

theorem feed_value_eq_complete {names : Interner} {items : List Tree} {stack : List Frame}
    {value : Tree} {look : Option Token} (h : Settled names (bound stack) look) :
    Config.feed names ⟨items, stack, .value value⟩ look = complete names items look stack value :=
  resume_eq_complete h

variable {names : Interner} {ending : Except LexError Nat} {items : List Tree}
  {stack : List Frame}

theorem settled_mono {b b' : Nat} (h : Settled names b look) (hb : b ≤ b') :
    Settled names b' look := by
  intro t ht
  obtain ⟨hparen, hconnective⟩ := h t ht
  exact ⟨hparen, fun c hc => Nat.le_trans (hconnective c hc) hb⟩

theorem settled_none (b : Nat) : Settled names b none := fun _ ht => nomatch ht

/-- A reserved word makes no operand longer. -/
theorem settled_of_keyword (b : Nat) (k : Keyword) (span : Span) :
    Settled names b (some ⟨.keyword k, span⟩) := by
  intro t ht
  cases ht
  refine ⟨rfl, ?_⟩
  intro c hc
  cases hc

theorem settled_of_operator {c : Connective} {n : Name} (span : Span)
    (hn : names.spelling n = c.symbol) :
    Settled names c.precedence (some ⟨.operator n, span⟩) := by
  intro t ht
  cases ht
  refine ⟨rfl, fun c' hc' => ?_⟩
  rw [connective?_of_spelling hn] at hc'
  cases hc'
  exact Nat.le_refl _

/-! ## Beginning and completing an operand -/

theorem close?_eq_none_of_begin {t : Token} {c : Config} (h : begin items stack (some t) = .ok c) :
    close? items stack (some t) = none := by
  -- no operand begins with a closing bracket
  have hpunct : ∀ p, p = .closeBrace ∨ p = .closeParen → t.isPunct p = false := by
    obtain ⟨kind, span⟩ := t
    cases kind with
    | punct mark =>
      cases mark with
      | openParen | openBrace => rintro p (rfl | rfl) <;> rfl
      | _ => contradiction
    | _ => exact fun _ _ => rfl
  unfold close?
  split
  · next t' heq =>
    cases heq
    rw [hpunct _ (.inl rfl)]
    rfl
  · next t' heq =>
    cases heq
    rw [hpunct _ (.inr rfl)]
    rfl
  · next heq => contradiction
  · rfl

/-- An operand begins where one is due, and where an item of a list may begin. -/
def Point.Ready (point : Point) : Prop := point = .operand ∨ point = .item

theorem run_begin {point : Point} {t : Token} {rest : List Token} {c : Config}
    (hpoint : point.Ready) (h : begin items stack (some t) = .ok c) :
    Config.run names ending ⟨items, stack, point⟩ (t :: rest) = c.run names ending rest := by
  refine Config.run_cons_of_ok ?_
  rcases hpoint with rfl | rfl
  · exact h
  · rw [Config.feed, close?_eq_none_of_begin h]
    exact h

/-- The operand of a construct is complete, and with it the construct. -/
theorem run_value {frame : Frame} {value whole : Tree} {rest : List Token}
    (hsettled : Settled names (bound (frame :: stack)) rest.head?)
    (h : complete names items rest.head? (frame :: stack) value =
      resume names items rest.head? stack whole) :
    Config.run names ending ⟨items, frame :: stack, .value value⟩ rest =
      Config.run names ending ⟨items, stack, .value whole⟩ rest := by
  refine Config.run_congr ?_
  rw [feed_value_eq_complete hsettled, h]
  rfl

end Grammar

end LambdaScript
