import LambdaScript.Interner
import LambdaScript.Operator
import LambdaScript.Source.Span
/-!
# Expressions

Every construct of the language is an expression. Each node has the span it was read from. A lambda
node carries a label of type `ι`: the grammar builds trees without labels (`Tree`), and a program is
run with its lambda nodes numbered (`Code`), so that functions made by different lambda nodes can be
told apart. `Expr.numbered` does the numbering, in the order in which the nodes stand in the text.
-/

namespace LambdaScript

/-- An expression whose lambda nodes carry labels of type `ι`. -/
inductive Expr (ι : Type) where
  | number (span : Span) (value : Float)
  /-- A string literal, its quotes left out. -/
  | string (span : Span) (contents : Name)
  | bool (span : Span) (value : Bool)
  | var (span : Span) (name : Name)
  | assign (span : Span) (target : Name) (value : Expr ι)
  | binary (span : Span) (op : BinaryOp) (left right : Expr ι)
  /-- A conditional without an `else`. -/
  | ifThen (span : Span) (condition thenBranch : Expr ι)
  | ifElse (span : Span) (condition thenBranch elseBranch : Expr ι)
  | loop (span : Span) (condition body : Expr ι)
  /-- Expressions one after the other. -/
  | seq (span : Span) (items : List (Expr ι))
  /-- A function; parameter names may repeat. -/
  | lambda (span : Span) (label : ι) (params : List Name) (body : Expr ι)
  | call (span : Span) (callee : Expr ι) (args : List (Expr ι))

/-- An expression as the grammar builds it. -/
abbrev Tree := Expr Unit

/-- An expression with its lambda nodes numbered. -/
abbrev Code := Expr Nat

namespace Expr

variable {ι : Type}

instance : Inhabited (Expr ι) := ⟨.seq .dummy []⟩

/-- The range of the source that a node was read from. -/
def span : Expr ι → Span
  | number s _ | string s _ | bool s _ | var s _ | assign s _ _ | binary s _ _ _ | ifThen s _ _
  | ifElse s _ _ _ | loop s _ _ | seq s _ | lambda s _ _ _ | call s _ _ => s

/-! ## Comparing -/

mutual

/-- Equal trees, spans included. Numbers are compared as numbers: `0` equals `-0`, and a tree that
holds a NaN does not equal itself. -/
def same [BEq ι] : Expr ι → Expr ι → Bool
  | number s x, number t y => s == t && x == y
  | string s x, string t y => s == t && x == y
  | bool s x, bool t y => s == t && x == y
  | var s x, var t y => s == t && x == y
  | assign s x v, assign t y w => s == t && x == y && same v w
  | binary s f a b, binary t g c d => s == t && f == g && same a c && same b d
  | ifThen s a b, ifThen t c d => s == t && same a c && same b d
  | ifElse s a b c, ifElse t d e f => s == t && same a d && same b e && same c f
  | loop s a b, loop t c d => s == t && same a c && same b d
  | seq s xs, seq t ys => s == t && sameAll xs ys
  | lambda s i ps a, lambda t j qs b => s == t && i == j && ps == qs && same a b
  | call s f xs, call t g ys => s == t && same f g && sameAll xs ys
  | _, _ => false

/-- Equal lists of trees. -/
def sameAll [BEq ι] : List (Expr ι) → List (Expr ι) → Bool
  | [], [] => true
  | x :: xs, y :: ys => same x y && sameAll xs ys
  | _, _ => false

end

instance [BEq ι] : BEq (Expr ι) := ⟨same⟩

/-! ## Numbering lambda nodes -/

mutual

/-- The tree with its lambda nodes numbered from `first` on, an outer one before those inside it,
and the first number not used. -/
def numbered (first : Nat) : Tree → Code × Nat
  | number s x => (.number s x, first)
  | string s x => (.string s x, first)
  | bool s x => (.bool s x, first)
  | var s x => (.var s x, first)
  | assign s x value =>
    let (value, next) := numbered first value
    (.assign s x value, next)
  | binary s op left right =>
    let (left, next) := numbered first left
    let (right, next) := numbered next right
    (.binary s op left right, next)
  | ifThen s condition thenBranch =>
    let (condition, next) := numbered first condition
    let (thenBranch, next) := numbered next thenBranch
    (.ifThen s condition thenBranch, next)
  | ifElse s condition thenBranch elseBranch =>
    let (condition, next) := numbered first condition
    let (thenBranch, next) := numbered next thenBranch
    let (elseBranch, next) := numbered next elseBranch
    (.ifElse s condition thenBranch elseBranch, next)
  | loop s condition body =>
    let (condition, next) := numbered first condition
    let (body, next) := numbered next body
    (.loop s condition body, next)
  | seq s items =>
    let (items, next) := numberedAll first items
    (.seq s items, next)
  | lambda s _ params body =>
    let (body, next) := numbered (first + 1) body
    (.lambda s first params body, next)
  | call s callee args =>
    let (callee, next) := numbered first callee
    let (args, next) := numberedAll next args
    (.call s callee args, next)

/-- The trees of a list numbered one after the other. -/
def numberedAll (first : Nat) : List Tree → List Code × Nat
  | [] => ([], first)
  | item :: items =>
    let (item, next) := numbered first item
    let (items, next) := numberedAll next items
    (item :: items, next)

end

end Expr

end LambdaScript
