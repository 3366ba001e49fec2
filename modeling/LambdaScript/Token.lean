import LambdaScript.Interner
import LambdaScript.Number.Decimal
import LambdaScript.Source.Span
/-!
# Tokens

A token is a number, a string, an identifier, a keyword, a punctuation character or an operator,
with the span it was read from. Strings, identifiers and operators are held by their number in an
interner. An operator token is any run of operator characters; whether it spells an operator of the
language is for the grammar to say.
-/

namespace LambdaScript

/-- Reserved words. -/
inductive Keyword where
  | ifWord | thenWord | elseWord | lambdaWord | trueWord | falseWord | whileWord
deriving DecidableEq, BEq, ReflBEq, LawfulBEq, Inhabited

namespace Keyword

/-- Every reserved word. -/
def all : List Keyword :=
  [ifWord, thenWord, elseWord, lambdaWord, trueWord, falseWord, whileWord]

/-- The spelling of a reserved word. -/
def spelling : Keyword → String
  | ifWord => "if"
  | thenWord => "then"
  | elseWord => "else"
  | lambdaWord => "lambda"
  | trueWord => "true"
  | falseWord => "false"
  | whileWord => "while"

/-- The reserved word with exactly this spelling. -/
def ofSpelling? : String → Option Keyword
  | "if" => some ifWord
  | "then" => some thenWord
  | "else" => some elseWord
  | "lambda" => some lambdaWord
  | "true" => some trueWord
  | "false" => some falseWord
  | "while" => some whileWord
  | _ => none

instance : ToString Keyword := ⟨spelling⟩

theorem ofSpelling?_spelling (k : Keyword) : ofSpelling? k.spelling = some k := by
  cases k <;> rfl

end Keyword

/-- Punctuation, a single character each. -/
inductive Punct where
  | comma | semicolon | openParen | closeParen | openBrace | closeBrace | openBracket | closeBracket
deriving DecidableEq, BEq, ReflBEq, LawfulBEq, Inhabited

namespace Punct

/-- All punctuation. -/
def all : List Punct :=
  [comma, semicolon, openParen, closeParen, openBrace, closeBrace, openBracket, closeBracket]

/-- The character of a punctuation token. -/
def char : Punct → Char
  | comma => ','
  | semicolon => ';'
  | openParen => '('
  | closeParen => ')'
  | openBrace => '\x7b'
  | closeBrace => '\x7d'
  | openBracket => '['
  | closeBracket => ']'

/-- The punctuation that a character stands for. -/
def ofChar? : Char → Option Punct
  | ',' => some comma
  | ';' => some semicolon
  | '(' => some openParen
  | ')' => some closeParen
  | '\x7b' => some openBrace
  | '\x7d' => some closeBrace
  | '[' => some openBracket
  | ']' => some closeBracket
  | _ => none

instance : ToString Punct := ⟨fun p => String.singleton p.char⟩

theorem ofChar?_char (p : Punct) : ofChar? p.char = some p := by cases p <;> rfl

end Punct

/-- What a token is. -/
inductive TokenKind where
  | number (value : Float)
  | string (contents : Name)
  | identifier (name : Name)
  | keyword (word : Keyword)
  | punct (mark : Punct)
  | operator (spelling : Name)

namespace TokenKind

/-- A token as an error message names it. -/
def describe (names : Interner) : TokenKind → String
  | number value => "number `" ++ numberText value ++ "`"
  | string contents => "string \"" ++ names.spelling contents ++ "\""
  | identifier name => "identifier `" ++ names.spelling name ++ "`"
  | keyword word => "keyword `" ++ word.spelling ++ "`"
  | punct mark => "`" ++ toString mark ++ "`"
  | operator spelling => "operator `" ++ names.spelling spelling ++ "`"

end TokenKind

/-- A token and the range of the source it was read from. -/
structure Token where
  kind : TokenKind
  span : Span

namespace Token

/-- The token is this punctuation. -/
def isPunct (t : Token) (p : Punct) : Bool :=
  match t.kind with
  | .punct q => q == p
  | _ => false

/-- The token is this reserved word. -/
def isKeyword (t : Token) (k : Keyword) : Bool :=
  match t.kind with
  | .keyword w => w == k
  | _ => false

end Token

end LambdaScript
