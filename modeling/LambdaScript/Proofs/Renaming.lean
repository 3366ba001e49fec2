import LambdaScript.Expr.Dump
import LambdaScript.Expr.Nodes
import LambdaScript.Token
import LambdaScript.Value.Operation
/-!
# Other names and spans

A `Renaming` puts names and spans in place of others, in trees, tokens, values and errors. What is
shown of a tree or a value does not change if the new names are spelled as the old ones
(`Renaming.dump_expr`, `Renaming.display_value`), and operators see no difference
(`Renaming.binary_value`).
-/

namespace LambdaScript

/-! ## Other functions -/

namespace Value

/-- Another function in place of each, and no other difference. -/
def onFunctions (g : Callable → Callable) : Value → Value
  | function f => function (g f)
  | number x => number x
  | string s => string s
  | bool b => bool b

variable {g : Callable → Callable}

@[simp] theorem kind_onFunctions (v : Value) : (v.onFunctions g).kind = v.kind := by
  cases v <;> rfl

@[simp] theorem isFalse_onFunctions (v : Value) : (v.onFunctions g).isFalse = v.isFalse := by
  cases v <;> rfl

theorem numbers_onFunctions (op : BinaryOp) (v w : Value) :
    numbers op (v.onFunctions g) (w.onFunctions g) = numbers op v w := by
  cases v <;> cases w <;> rfl

theorem dividends_onFunctions (op : BinaryOp) (v w : Value) :
    dividends op (v.onFunctions g) (w.onFunctions g) = dividends op v w := by
  cases v <;> cases w <;> rfl

theorem compare?_onFunctions (v w : Value) :
    compare? (v.onFunctions g) (w.onFunctions g) = compare? v w := by
  cases v <;> cases w <;> rfl

theorem add_onFunctions (v w : Value) :
    add (v.onFunctions g) (w.onFunctions g) = (add v w).map (onFunctions g) := by
  cases v <;> cases w <;> rfl

theorem same_onFunctions (hg : ∀ f f', (g f).same (g f') = f.same f') (v w : Value) :
    (v.onFunctions g).same (w.onFunctions g) = v.same w := by
  cases v <;> cases w <;> first | exact hg _ _ | rfl

/-- Operators see no difference, as long as functions are told apart as before. -/
theorem binary_onFunctions (hg : ∀ f f', (g f).same (g f') = f.same f') (op : BinaryOp)
    (v w : Value) :
    binary op (v.onFunctions g) (w.onFunctions g) = (binary op v w).map (onFunctions g) := by
  cases op with
  | add => exact add_onFunctions v w
  | sub | mul =>
    rw [binary, binary, numbers_onFunctions]
    rcases numbers _ v w with e | ⟨x, y⟩ <;> rfl
  | div | mod =>
    rw [binary, binary, dividends_onFunctions]
    rcases dividends _ v w with e | ⟨x, y⟩ <;> rfl
  | lt | le | gt | ge =>
    rw [binary, binary, order, order, compare?_onFunctions, kind_onFunctions, kind_onFunctions]
    cases compare? v w <;> rfl
  | eq | ne =>
    rw [binary, binary, same_onFunctions hg]
    rfl
  | and | or =>
    rw [binary, binary, isFalse_onFunctions]
    cases v.isFalse <;> rfl

end Value

/-- What to put in place of names and spans. -/
structure Renaming where
  name : Name → Name
  span : Span → Span

namespace Renaming

/-- Everything stays as it is. -/
protected def id : Renaming := ⟨id, id⟩

variable {ι : Type} (r : Renaming)

mutual

/-- A tree with other names and spans. -/
def expr : Expr ι → Expr ι
  | .number s x => .number (r.span s) x
  | .string s contents => .string (r.span s) (r.name contents)
  | .bool s b => .bool (r.span s) b
  | .var s x => .var (r.span s) (r.name x)
  | .assign s target value => .assign (r.span s) (r.name target) (expr value)
  | .binary s op left right => .binary (r.span s) op (expr left) (expr right)
  | .ifThen s condition thenBranch => .ifThen (r.span s) (expr condition) (expr thenBranch)
  | .ifElse s condition thenBranch elseBranch =>
    .ifElse (r.span s) (expr condition) (expr thenBranch) (expr elseBranch)
  | .loop s condition body => .loop (r.span s) (expr condition) (expr body)
  | .seq s items => .seq (r.span s) (exprs items)
  | .lambda s label params body => .lambda (r.span s) label (params.map r.name) (expr body)
  | .call s callee args => .call (r.span s) (expr callee) (exprs args)

/-- The trees of a list with other names and spans. -/
def exprs : List (Expr ι) → List (Expr ι)
  | [] => []
  | e :: es => expr e :: exprs es

end

/-- What a token is, with another name. -/
def kind : TokenKind → TokenKind
  | .string contents => .string (r.name contents)
  | .identifier name => .identifier (r.name name)
  | .operator spelling => .operator (r.name spelling)
  | .number value => .number value
  | .keyword word => .keyword word
  | .punct mark => .punct mark

def token (t : Token) : Token := ⟨r.kind t.kind, r.span t.span⟩

def closure (c : Closure) : Closure := ⟨c.label, c.params.map r.name, r.expr c.body, c.scope⟩

/-- A value; only closures hold names and spans. -/
def value : Value → Value
  | .function (.closure c) => .function (.closure (r.closure c))
  | .function (.builtin b) => .function (.builtin b)
  | .number x => .number x
  | .string s => .string s
  | .bool b => .bool b

def error (e : RuntimeError) : RuntimeError := ⟨e.fault, e.span.map r.span⟩

/-! ## Trees -/

theorem exprs_eq_map (es : List (Expr ι)) : r.exprs es = es.map r.expr := by
  induction es with
  | nil => rfl
  | cons e es ih => rw [exprs, ih, List.map_cons]

@[simp] theorem span_expr (e : Expr ι) : (r.expr e).span = r.span e.span := by
  cases e <;> rfl

mutual

theorem expr_id : ∀ e : Expr ι, Renaming.id.expr e = e
  | .number .. | .string .. | .bool .. | .var .. => rfl
  | .assign _ _ value => by rw [expr, expr_id value]; rfl
  | .binary _ _ left right => by rw [expr, expr_id left, expr_id right]; rfl
  | .ifThen _ condition thenBranch => by rw [expr, expr_id condition, expr_id thenBranch]; rfl
  | .ifElse _ condition thenBranch elseBranch => by
    rw [expr, expr_id condition, expr_id thenBranch, expr_id elseBranch]; rfl
  | .loop _ condition body => by rw [expr, expr_id condition, expr_id body]; rfl
  | .seq _ items => by rw [expr, exprs_id items]; rfl
  | .lambda _ _ params body => by
    rw [expr, expr_id body, show params.map Renaming.id.name = params from List.map_id params]; rfl
  | .call _ callee args => by rw [expr, expr_id callee, exprs_id args]; rfl

theorem exprs_id : ∀ es : List (Expr ι), Renaming.id.exprs es = es
  | [] => rfl
  | e :: es => by rw [exprs, expr_id e, exprs_id es]

end

mutual

/-- Lambda nodes are numbered alike. -/
theorem numbered_expr (first : Nat) : ∀ e : Tree,
    (r.expr e).numbered first = (r.expr (e.numbered first).1, (e.numbered first).2)
  | .number .. | .string .. | .bool .. | .var .. => rfl
  | .assign _ _ value => by simp only [expr, Expr.numbered, numbered_expr first value]
  | .binary _ _ left right => by
    simp only [expr, Expr.numbered, numbered_expr _ left, numbered_expr _ right]
  | .ifThen _ condition thenBranch => by
    simp only [expr, Expr.numbered, numbered_expr _ condition, numbered_expr _ thenBranch]
  | .ifElse _ condition thenBranch elseBranch => by
    simp only [expr, Expr.numbered, numbered_expr _ condition, numbered_expr _ thenBranch,
      numbered_expr _ elseBranch]
  | .loop _ condition body => by
    simp only [expr, Expr.numbered, numbered_expr _ condition, numbered_expr _ body]
  | .seq _ items => by simp only [expr, Expr.numbered, numberedAll_exprs _ items]
  | .lambda _ _ _ body => by simp only [expr, Expr.numbered, numbered_expr _ body]
  | .call _ callee args => by
    simp only [expr, Expr.numbered, numbered_expr _ callee, numberedAll_exprs _ args]

theorem numberedAll_exprs (first : Nat) : ∀ es : List Tree,
    Expr.numberedAll first (r.exprs es) =
      (r.exprs (Expr.numberedAll first es).1, (Expr.numberedAll first es).2)
  | [] => rfl
  | e :: es => by
    simp only [exprs, Expr.numberedAll, numbered_expr _ e, numberedAll_exprs _ es]

end

mutual

theorem nodesBefore_expr (after : List (NodeKind × Span)) : ∀ e : Expr ι,
    (r.expr e).nodesBefore (after.map (Prod.map id r.span)) =
      (e.nodesBefore after).map (Prod.map id r.span)
  | .number .. | .string .. | .bool .. | .var .. => rfl
  | .assign _ _ value => by
    simp only [expr, Expr.nodesBefore, nodesBefore_expr _ value, List.map_cons, Prod.map, id]
  | .binary _ _ left right => by
    simp only [expr, Expr.nodesBefore, nodesBefore_expr _ left, nodesBefore_expr _ right,
      List.map_cons, Prod.map, id]
  | .ifThen _ condition thenBranch => by
    simp only [expr, Expr.nodesBefore, nodesBefore_expr _ condition, nodesBefore_expr _ thenBranch,
      List.map_cons, Prod.map, id]
  | .ifElse _ condition thenBranch elseBranch => by
    simp only [expr, Expr.nodesBefore, nodesBefore_expr _ condition, nodesBefore_expr _ thenBranch,
      nodesBefore_expr _ elseBranch, List.map_cons, Prod.map, id]
  | .loop _ condition body => by
    simp only [expr, Expr.nodesBefore, nodesBefore_expr _ condition, nodesBefore_expr _ body,
      List.map_cons, Prod.map, id]
  | .seq _ items => by
    simp only [expr, Expr.nodesBefore, nodesBeforeAll_exprs _ items, List.map_cons, Prod.map, id]
  | .lambda _ _ _ body => by
    simp only [expr, Expr.nodesBefore, nodesBefore_expr _ body, List.map_cons, Prod.map, id]
  | .call _ callee args => by
    simp only [expr, Expr.nodesBefore, nodesBefore_expr _ callee, nodesBeforeAll_exprs _ args,
      List.map_cons, Prod.map, id]

theorem nodesBeforeAll_exprs (after : List (NodeKind × Span)) : ∀ es : List (Expr ι),
    Expr.nodesBeforeAll (after.map (Prod.map id r.span)) (r.exprs es) =
      (Expr.nodesBeforeAll after es).map (Prod.map id r.span)
  | [] => rfl
  | e :: es => by
    simp only [exprs, Expr.nodesBeforeAll, nodesBefore_expr _ e, nodesBeforeAll_exprs _ es]

end

theorem nodes_expr (e : Expr ι) : (r.expr e).nodes = e.nodes.map (Prod.map id r.span) :=
  r.nodesBefore_expr [] e

/-! ## What is shown -/

/-- The new names are spelled as the old ones. -/
def Respells (names names' : Interner) : Prop := ∀ x, names'.spelling (r.name x) = names.spelling x

section
variable {r} {names names' : Interner}

theorem map_spelling (h : r.Respells names names') (xs : List Name) :
    (xs.map r.name).map names'.spelling = xs.map names.spelling := by
  rw [List.map_map]
  exact List.map_congr_left fun x _ => h x

mutual

theorem dump_expr (h : r.Respells names names') : ∀ e : Expr ι,
    (r.expr e).dump names' = e.dump names
  | .number .. | .bool .. => rfl
  | .string .. | .var .. => by simp only [expr, Expr.dump, h _]
  | .assign _ _ value => by simp only [expr, Expr.dump, h _, dump_expr h value]
  | .binary _ _ left right => by simp only [expr, Expr.dump, dump_expr h left, dump_expr h right]
  | .ifThen _ condition thenBranch => by
    simp only [expr, Expr.dump, dump_expr h condition, dump_expr h thenBranch]
  | .ifElse _ condition thenBranch elseBranch => by
    simp only [expr, Expr.dump, dump_expr h condition, dump_expr h thenBranch,
      dump_expr h elseBranch]
  | .loop _ condition body => by
    simp only [expr, Expr.dump, dump_expr h condition, dump_expr h body]
  | .seq _ items => by simp only [expr, Expr.dump, dumpAll_exprs h items]
  | .lambda _ _ _ body => by
    simp only [expr, Expr.dump, Expr.dumpNames, map_spelling h, dump_expr h body]
  | .call _ callee args => by simp only [expr, Expr.dump, dump_expr h callee, dumpAll_exprs h args]

theorem dumpAll_exprs (h : r.Respells names names') : ∀ es : List (Expr ι),
    Expr.dumpAll names' (r.exprs es) = Expr.dumpAll names es
  | [] => rfl
  | e :: es => by simp only [exprs, Expr.dumpAll, dump_expr h e, dumpAll_exprs h es]

end

theorem display_value (h : r.Respells names names') (v : Value) :
    (r.value v).display names' = v.display names := by
  rcases v with x | s | b | c | b
  case function.closure => simp only [value, closure, Value.display, map_spelling h]
  all_goals rfl

end

/-! ## Values -/

/-- What is put in place of a function. -/
def callable : Callable → Callable
  | .closure c => .closure (r.closure c)
  | .builtin b => .builtin b

theorem value_eq (v : Value) : r.value v = v.onFunctions r.callable := by
  rcases v with x | s | b | c | b <;> rfl

/-- Closures are told apart by their lambda nodes and scopes. -/
theorem same_callable (f g : Callable) : (r.callable f).same (r.callable g) = f.same g := by
  cases f <;> cases g <;> rfl

@[simp] theorem kind_value (v : Value) : (r.value v).kind = v.kind := by
  rw [value_eq, Value.kind_onFunctions]

@[simp] theorem isFalse_value (v : Value) : (r.value v).isFalse = v.isFalse := by
  rw [value_eq, Value.isFalse_onFunctions]

/-- Operators see no difference. -/
theorem binary_value (op : BinaryOp) (v w : Value) :
    Value.binary op (r.value v) (r.value w) = (Value.binary op v w).map r.value := by
  rw [value_eq, value_eq, Value.binary_onFunctions r.same_callable, ← funext r.value_eq]

theorem value_id (v : Value) : Renaming.id.value v = v := by
  rcases v with x | s | b | c | b
  case function.closure =>
    rw [value, closure, expr_id,
      show c.params.map Renaming.id.name = c.params from List.map_id c.params]
  all_goals rfl

theorem error_id (e : RuntimeError) : Renaming.id.error e = e := by
  obtain ⟨fault, span⟩ := e
  cases span <;> rfl

theorem error_located (e : RuntimeError) (s : Span) :
    r.error (e.located s) = (r.error e).located (r.span s) := by
  obtain ⟨fault, span⟩ := e
  cases span <;> rfl

end Renaming
end LambdaScript
