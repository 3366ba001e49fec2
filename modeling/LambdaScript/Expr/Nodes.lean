import LambdaScript.Expr
/-!
# The nodes of an expression

`Expr.nodes` lists the nodes of a tree with their spans, each before its children and the children
in the order of the text.
-/

namespace LambdaScript

/-- The construct that a node stands for. -/
inductive NodeKind where
  | number | string | bool | var | assign | binary | conditional | loop | seq | lambda | call
deriving DecidableEq

namespace NodeKind

/-- A short word for each construct. -/
def word : NodeKind → String
  | number => "num"
  | string => "str"
  | bool => "bool"
  | var => "var"
  | assign => "assign"
  | binary => "binary"
  | conditional => "if"
  | loop => "while"
  | seq => "seq"
  | lambda => "lambda"
  | call => "call"

instance : ToString NodeKind := ⟨word⟩

end NodeKind

namespace Expr

variable {ι : Type}

mutual

/-- The nodes of a tree, put before the list `after`. -/
def nodesBefore (after : List (NodeKind × Span)) : Expr ι → List (NodeKind × Span)
  | number s _ => (.number, s) :: after
  | string s _ => (.string, s) :: after
  | bool s _ => (.bool, s) :: after
  | var s _ => (.var, s) :: after
  | assign s _ value => (.assign, s) :: nodesBefore after value
  | binary s _ left right => (.binary, s) :: nodesBefore (nodesBefore after right) left
  | ifThen s condition thenBranch =>
    (.conditional, s) :: nodesBefore (nodesBefore after thenBranch) condition
  | ifElse s condition thenBranch elseBranch =>
    (.conditional, s) ::
      nodesBefore (nodesBefore (nodesBefore after elseBranch) thenBranch) condition
  | loop s condition body => (.loop, s) :: nodesBefore (nodesBefore after body) condition
  | seq s items => (.seq, s) :: nodesBeforeAll after items
  | lambda s _ _ body => (.lambda, s) :: nodesBefore after body
  | call s callee args => (.call, s) :: nodesBefore (nodesBeforeAll after args) callee

/-- The nodes of the trees of a list, put before the list `after`. -/
def nodesBeforeAll (after : List (NodeKind × Span)) : List (Expr ι) → List (NodeKind × Span)
  | [] => after
  | item :: items => nodesBefore (nodesBeforeAll after items) item

end

/-- The nodes of a tree with their spans. -/
def nodes (e : Expr ι) : List (NodeKind × Span) := nodesBefore [] e

end Expr

end LambdaScript
