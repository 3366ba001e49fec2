import LambdaScript.Proofs.Descent
import LambdaScript.Proofs.Renaming
/-!
# Reading tokens under other names and spans

If names and spans of tokens are replaced by others, and the names in them are spelled as before,
then the grammar reads the same tree with the same replacements, or reports the same fault
(`Grammar.run_renamed`). Spans of trees are merged from those of their parts, so a replacement of
spans has to respect `Span.merge`.
-/

namespace LambdaScript

open Grammar

/-- Spans can be replaced before or after they are merged. -/
structure Renaming.Merges (r : Renaming) : Prop where
  merge : ∀ s t, r.span (s.merge t) = (r.span s).merge (r.span t)

/-- So can those of whole sources; `place` replaces the offset at which a source ends. -/
structure Renaming.Reads (r : Renaming) (place : Nat → Nat) : Prop extends r.Merges where
  point : ∀ offset, r.span (.point offset) = .point (place offset)
  place_zero : place 0 = 0

/-- What a token holds is spelled as before. -/
def Renaming.RespellsKind (r : Renaming) (names names' : Interner) (k : TokenKind) : Prop :=
  ∀ n, k.name? = some n → names'.spelling (r.name n) = names.spelling n

/-- The next token, if there is one, is spelled as before. -/
def Renaming.RespellsNext (r : Renaming) (names names' : Interner) (look : Option Token) : Prop :=
  ∀ t, look = some t → r.RespellsKind names names' t.kind

namespace Renaming

variable (r : Renaming)

def frame : Frame → Frame
  | .operand c left => .operand c (r.expr left)
  | .paren => .paren
  | .block s before => .block (r.span s) (before.map r.expr)
  | .args callee s before => .args (r.expr callee) (r.span s) (before.map r.expr)
  | .ifCondition s => .ifCondition (r.span s)
  | .thenBranch s condition => .thenBranch (r.span s) (r.expr condition)
  | .elseBranch s condition thenBranch =>
    .elseBranch (r.span s) (r.expr condition) (r.expr thenBranch)
  | .loopCondition s => .loopCondition (r.span s)
  | .loopBody s condition => .loopBody (r.span s) (r.expr condition)
  | .lambdaBody s params => .lambdaBody (r.span s) (params.map r.name)

def point : Point → Point
  | .operand => .operand
  | .item => .item
  | .value tree => .value (r.expr tree)
  | .paramList s => .paramList (r.span s)
  | .param s before => .param (r.span s) (before.map r.name)
  | .paramEnd s before => .paramEnd (r.span s) (before.map r.name)

def config (c : Config) : Config :=
  ⟨c.items.map r.expr, c.stack.map r.frame, r.point c.point⟩

def complaint : Complaint → Complaint
  | .badTarget s => .badTarget (r.span s)
  | .noExpression => .noExpression
  | .noPunct p => .noPunct p
  | .noKeyword k => .noKeyword k
  | .noParameter => .noParameter

/-- What joining two operands comes to. -/
def joined : Except Complaint Tree → Except Complaint Tree
  | .ok whole => .ok (r.expr whole)
  | .error e => .error (r.complaint e)

/-- What a step comes to. -/
def step : Except Complaint Config → Except Complaint Config
  | .ok c => .ok (r.config c)
  | .error e => .error (r.complaint e)

/-- What reading a source comes to; a lexical error is not one of the grammar. -/
def parsed : Except SyntaxError Tree → Except SyntaxError Tree
  | .ok tree => .ok (r.expr tree)
  | .error (.grammatical e) => .error (.grammatical ⟨e.fault, r.span e.span⟩)
  | .error (.lexical e) => .error (.lexical e)

end Renaming

namespace Grammar

variable {r : Renaming} {names names' : Interner} {place : Nat → Nat}

section
variable (r)

theorem isPunct_token (t : Token) (p : Punct) : (r.token t).isPunct p = t.isPunct p := by
  obtain ⟨kind, span⟩ := t
  cases kind <;> rfl

theorem isKeyword_token (t : Token) (k : Keyword) : (r.token t).isKeyword k = t.isKeyword k := by
  obtain ⟨kind, span⟩ := t
  cases kind <;> rfl

theorem any_isPunct_token (look : Option Token) (p : Punct) :
    (look.map r.token).any (·.isPunct p) = look.any (·.isPunct p) := by
  cases look with
  | none => rfl
  | some t => exact isPunct_token r t p

theorem any_isKeyword_token (look : Option Token) (k : Keyword) :
    (look.map r.token).any (·.isKeyword k) = look.any (·.isKeyword k) := by
  cases look with
  | none => rfl
  | some t => exact isKeyword_token r t k

theorem bound_map (stack : List Frame) : bound (stack.map r.frame) = bound stack := by
  rcases stack with _ | ⟨frame, stack⟩
  · rfl
  · cases frame <;> rfl

theorem begin_renamed (items : List Tree) (stack : List Frame) (look : Option Token) :
    begin (items.map r.expr) (stack.map r.frame) (look.map r.token) =
      r.step (begin items stack look) := by
  rcases look with _ | ⟨kind, span⟩
  · rfl
  cases kind with
  | keyword word => cases word <;> rfl
  | punct mark => cases mark <;> rfl
  | _ => rfl

theorem identifier?_renamed (look : Option Token) :
    identifier? (look.map r.token) = (identifier? look).map r.name := by
  rcases look with _ | ⟨kind, span⟩
  · rfl
  · cases kind <;> rfl

theorem blockTree_renamed (span : Span) (items : List Tree) :
    blockTree (r.span span) (items.map r.expr) = r.expr (blockTree span items) := by
  rcases items with _ | ⟨item, _ | ⟨next, items⟩⟩
  · rfl
  · rfl
  · exact congrArg (Expr.seq (r.span span)) (r.exprs_eq_map (item :: next :: items)).symm

theorem behindCondition_renamed (items : List Tree) (stack : List Frame) (look : Option Token) :
    behindCondition (items.map r.expr) (stack.map r.frame) (look.map r.token) =
      r.step (behindCondition items stack look) := by
  rw [behindCondition, behindCondition, any_isPunct_token, any_isKeyword_token, begin_renamed]
  split
  · rfl
  split <;> rfl

end

theorem connective?_token {t : Token} (ht : r.RespellsKind names names' t.kind) :
    connective? names' (r.token t) = connective? names t := by
  obtain ⟨kind, span⟩ := t
  cases kind with
  | operator name =>
    show Connective.ofSymbol? (names'.spelling (r.name name)) = _
    rw [ht name rfl]
    rfl
  | _ => rfl

theorem describe_kind {k : TokenKind} (hk : r.RespellsKind names names' k) :
    (r.kind k).describe names' = k.describe names := by
  cases k with
  | number | keyword | punct => rfl
  | string name | identifier name | operator name =>
    simp only [Renaming.kind, TokenKind.describe, hk name rfl]

theorem extend?_renamed (items : List Tree) (stack : List Frame) (value : Tree)
    {look : Option Token} (hlook : r.RespellsNext names names' look) :
    extend? names' (items.map r.expr) (stack.map r.frame) (r.expr value) (look.map r.token) =
      (extend? names items stack value look).map r.config := by
  cases look with
  | none => rfl
  | some t =>
    have hconnective := connective?_token (hlook t rfl)
    rw [Option.map_some, extend?, extend?, isPunct_token, hconnective, bound_map]
    split
    · rfl
    · rcases connective? names t with _ | c
      · rfl
      · dsimp only
        split <;> rfl

theorem extendOr_renamed (items : List Tree) {look : Option Token}
    (hlook : r.RespellsNext names names' look) (stack : List Frame)
    (value : Tree) {next next' : Except Complaint Config} (hnext : next' = r.step next) :
    extendOr names' (items.map r.expr) (look.map r.token) (stack.map r.frame) (r.expr value) next' =
      r.step (extendOr names items look stack value next) := by
  rw [extendOr, extendOr, extend?_renamed items stack value hlook, hnext]
  cases extend? names items stack value look <;> rfl

theorem report_token (e : Complaint) {t : Token} (ht : r.RespellsKind names names' t.kind)
    (offset : Nat) : (r.complaint e).report names' offset (some (r.token t)) =
      ⟨(e.report names offset (some t)).fault, r.span (e.report names offset (some t)).span⟩ := by
  have hdescribe := describe_kind ht
  cases e <;> simp only [Renaming.complaint, Renaming.token, Complaint.report, hdescribe]

section
variable (h : r.Merges)
include h

theorem join_renamed (c : Connective) (left right : Tree) :
    join c (r.expr left) (r.expr right) = r.joined (join c left right) := by
  cases c with
  | binary op =>
    rw [join, join, Renaming.span_expr, Renaming.span_expr, ← h.merge]
    rfl
  | assignment =>
    cases left with
    | var span target =>
      rw [Renaming.expr, join, join, Renaming.span_expr, ← h.merge]
      rfl
    | _ => rfl

theorem close?_renamed (items : List Tree) (stack : List Frame) (look : Option Token) :
    close? (items.map r.expr) (stack.map r.frame) (look.map r.token) =
      (close? items stack look).map r.config := by
  rcases stack with _ | ⟨frame, stack⟩
  · cases look <;> rfl
  cases look with
  | none => cases frame <;> rfl
  | some t =>
    cases frame with
    | block start before =>
      have hspan : (r.span start).merge (r.token t).span = r.span (start.merge t.span) :=
        (h.merge start t.span).symm
      have htree := blockTree_renamed r (start.merge t.span) before.reverse
      rw [List.map_reverse] at htree
      simp only [List.map_cons, Option.map_some, Renaming.frame, close?, isPunct_token, hspan,
        htree]
      split <;> rfl
    | args callee start before =>
      have hspan : (r.expr callee).span.merge ((r.span start).merge (r.token t).span) =
          r.span (callee.span.merge (start.merge t.span)) := by
        rw [Renaming.span_expr, h.merge, h.merge]
        rfl
      have hargs : (before.map r.expr).reverse = r.exprs before.reverse := by
        rw [← List.map_reverse, Renaming.exprs_eq_map]
      simp only [List.map_cons, Option.map_some, Renaming.frame, close?, isPunct_token, hspan,
        hargs]
      split <;> rfl
    | _ => rfl

theorem behindItem_renamed (items : List Tree) (stack : List Frame) (separator : Punct)
    (look : Option Token) :
    behindItem (items.map r.expr) (stack.map r.frame) separator (look.map r.token) =
      r.step (behindItem items stack separator look) := by
  rw [behindItem, behindItem, close?_renamed h, any_isPunct_token]
  rcases close? items stack look with _ | c
  · dsimp only [Option.map_none]
    split <;> rfl
  · rfl

/-- A construct that is complete, with the span from its first token to its last operand. -/
theorem complete_renamed (items : List Tree) {look : Option Token}
    (hlook : r.RespellsNext names names' look) (stack : List Frame)
    (value : Tree) :
    complete names' (items.map r.expr) (look.map r.token) (stack.map r.frame) (r.expr value) =
      r.step (complete names items look stack value) := by
  induction stack generalizing value with
  | nil => exact behindItem_renamed h (value :: items) [] .semicolon look
  | cons frame stack ih =>
    have hwhole : ∀ whole : Tree, extendOr names' (items.map r.expr) (look.map r.token)
        (stack.map r.frame) (r.expr whole)
        (complete names' (items.map r.expr) (look.map r.token) (stack.map r.frame) (r.expr whole)) =
          r.step (extendOr names items look stack whole (complete names items look stack whole)) :=
      fun whole => extendOr_renamed items hlook stack whole (ih whole)
    have hspan : ∀ start, (r.span start).merge (r.expr value).span =
        r.span (start.merge value.span) := by
      intro start
      rw [Renaming.span_expr, h.merge]
    cases frame with
    | operand c left =>
      simp only [List.map_cons, Renaming.frame, complete, join_renamed h]
      cases join c left value with
      | ok whole => exact hwhole whole
      | error e => rfl
    | paren =>
      simp only [List.map_cons, Renaming.frame, complete, any_isPunct_token]
      split <;> rfl
    | block start before =>
      exact behindItem_renamed h items (.block start (value :: before) :: stack) .semicolon look
    | args callee start before =>
      exact behindItem_renamed h items (.args callee start (value :: before) :: stack) .comma look
    | ifCondition start =>
      exact behindCondition_renamed r items (.thenBranch start value :: stack) look
    | thenBranch start condition =>
      simp only [List.map_cons, Renaming.frame, complete, any_isKeyword_token, hspan]
      split
      · rfl
      · exact hwhole (.ifThen (start.merge value.span) condition value)
    | elseBranch start condition thenBranch =>
      simp only [List.map_cons, Renaming.frame, complete, hspan]
      exact hwhole (.ifElse (start.merge value.span) condition thenBranch value)
    | loopCondition start =>
      exact behindCondition_renamed r items (.loopBody start value :: stack) look
    | loopBody start condition =>
      simp only [List.map_cons, Renaming.frame, complete, hspan]
      exact hwhole (.loop (start.merge value.span) condition value)
    | lambdaBody start params =>
      simp only [List.map_cons, Renaming.frame, complete, hspan]
      exact hwhole (.lambda (start.merge value.span) () params value)

/-- One step. -/
theorem feed_renamed (c : Config) {look : Option Token}
    (hlook : r.RespellsNext names names' look) :
    (r.config c).feed names' (look.map r.token) = r.step (c.feed names look) := by
  obtain ⟨items, stack, point⟩ := c
  cases point with
  | operand => exact begin_renamed r items stack look
  | item =>
    simp only [Renaming.config, Renaming.point, Config.feed, close?_renamed h, begin_renamed]
    cases close? items stack look <;> rfl
  | value tree =>
    exact extendOr_renamed items hlook stack tree (complete_renamed h items hlook stack tree)
  | paramList start =>
    simp only [Renaming.config, Renaming.point, Config.feed, any_isPunct_token]
    split <;> rfl
  | param start before =>
    simp only [Renaming.config, Renaming.point, Config.feed, any_isPunct_token, ← List.map_reverse,
      identifier?_renamed]
    split
    · rfl
    · cases identifier? look <;> rfl
  | paramEnd start before =>
    simp only [Renaming.config, Renaming.point, Config.feed, any_isPunct_token, ← List.map_reverse]
    split
    · rfl
    split <;> rfl

end

section
variable (h : r.Reads place)
include h

theorem report_end (names names' : Interner) (e : Complaint) (offset : Nat) :
    (r.complaint e).report names' (place offset) none =
      ⟨(e.report names offset none).fault, r.span (e.report names offset none).span⟩ := by
  cases e <;> simp only [Renaming.complaint, Complaint.report, h.point]

theorem programSpan_renamed (items : List Tree) :
    programSpan (items.map r.expr) = r.span (programSpan items) := by
  have hempty : r.span (.point 0) = .point 0 := by rw [h.point, h.place_zero]
  rw [programSpan, programSpan, List.head?_map, List.getLast?_map]
  cases items.head? <;> cases items.getLast?
  case some.some first last =>
    simp only [Option.map_some, Renaming.span_expr, h.merge]
  all_goals exact hempty.symm

theorem program_renamed (c : Config) : (r.config c).program = r.expr c.program := by
  have hspan := programSpan_renamed h c.items.reverse
  rw [List.map_reverse] at hspan
  rw [Config.program, Config.program, Renaming.expr, Renaming.exprs_eq_map, List.map_reverse]
  rw [Renaming.config, hspan]

/-- Whole lists of tokens. -/
theorem run_renamed (ending : Except LexError Nat) (c : Config) {tokens : List Token}
    (htokens : ∀ t ∈ tokens, r.RespellsKind names names' t.kind) :
    ((r.config c).run names' (ending.map place) (tokens.map r.token)).1 =
      r.parsed (c.run names ending tokens).1 := by
  induction tokens generalizing c with
  | nil =>
    cases ending with
    | error e => rfl
    | ok offset =>
      have hnext : r.RespellsNext names names' none := fun t ht => nomatch ht
      have hfeed : (r.config c).feed names' none = r.step (c.feed names none) :=
        feed_renamed h.toMerges c hnext
      show ((r.config c).run names' (.ok (place offset)) []).1 = _
      cases hstep : c.feed names none with
      | ok c' =>
        rw [hstep] at hfeed
        rw [Config.run_nil_of_ok hfeed, Config.run_nil_of_ok hstep, program_renamed h]
        rfl
      | error e =>
        rw [hstep] at hfeed
        rw [Config.run_nil_of_error hfeed, Config.run_nil_of_error hstep, report_end h]
        rfl
  | cons t tokens ih =>
    obtain ⟨ht, htokens⟩ := List.forall_mem_cons.mp htokens
    have hnext : r.RespellsNext names names' (some t) := by
      rintro u ⟨⟩
      exact ht
    have hfeed : (r.config c).feed names' (some (r.token t)) = r.step (c.feed names (some t)) :=
      feed_renamed h.toMerges c hnext
    cases hstep : c.feed names (some t) with
    | ok c' =>
      rw [hstep] at hfeed
      rw [List.map_cons, Config.run_cons_of_ok hstep, Config.run_cons_of_ok hfeed]
      exact ih c' htokens
    | error e =>
      rw [hstep] at hfeed
      rw [List.map_cons, Config.run_cons_of_error hstep, Config.run_cons_of_error hfeed,
        report_token e ht]
      rfl

end

end Grammar
end LambdaScript
