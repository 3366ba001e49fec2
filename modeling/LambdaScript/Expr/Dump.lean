import LambdaScript.Expr
import LambdaScript.Number.Decimal
import LambdaScript.Text.Quoted
/-!
# Expressions as one line of text

`Expr.dump` writes a tree in brackets, the construct first and its parts after it:

    sum = lambda (x) x + 1     (= sum (lambda (x) (+ x 1)))

Numbers, strings and names stand for themselves, a string in quotes.
-/

namespace LambdaScript.Expr

variable {ι : Type}

/-- Names with a blank between them. -/
def dumpNames (names : Interner) (list : List Name) : String :=
  " ".intercalate (list.map names.spelling)

mutual

/-- A tree on one line. -/
def dump (names : Interner) : Expr ι → String
  | number _ value => numberText value
  | string _ contents => Text.quoted (names.spelling contents)
  | bool _ value => if value then "true" else "false"
  | var _ name => names.spelling name
  | assign _ target value => "(= " ++ names.spelling target ++ " " ++ dump names value ++ ")"
  | binary _ op left right =>
    "(" ++ op.symbol ++ " " ++ dump names left ++ " " ++ dump names right ++ ")"
  | ifThen _ condition thenBranch =>
    "(if " ++ dump names condition ++ " " ++ dump names thenBranch ++ ")"
  | ifElse _ condition thenBranch elseBranch =>
    "(if " ++ dump names condition ++ " " ++ dump names thenBranch ++ " " ++
      dump names elseBranch ++ ")"
  | loop _ condition body => "(while " ++ dump names condition ++ " " ++ dump names body ++ ")"
  | seq _ items => "(seq" ++ dumpAll names items ++ ")"
  | lambda _ _ params body =>
    "(lambda (" ++ dumpNames names params ++ ") " ++ dump names body ++ ")"
  | call _ callee args => "(call " ++ dump names callee ++ dumpAll names args ++ ")"

/-- Trees on one line, a blank before each. -/
def dumpAll (names : Interner) : List (Expr ι) → String
  | [] => ""
  | item :: items => " " ++ dump names item ++ dumpAll names items

end

end LambdaScript.Expr
