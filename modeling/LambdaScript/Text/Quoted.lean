import LambdaScript.Text.Invisible
/-!
# Quoted characters and strings

The quoted form of a text shows it on one line between quotes. The quote itself, the backslash, NUL,
tab, CR and LF are written with a backslash; every other character without a visible form is written
as its code point in braces.
-/

namespace LambdaScript.Text

/-- The code point of a character in hexadecimal, as `\u` and the number in braces. -/
def codePointEscape (c : Char) : List Char :=
  '\\' :: 'u' :: '\x7b' :: (Nat.toDigits 16 c.toNat ++ ['\x7d'])

/-- One character inside a text quoted by `quote`. -/
def escape (quote c : Char) : List Char :=
  if c = quote || c = '\\' then ['\\', c]
  else if c = '\x00' then ['\\', '0']
  else if c = '\t' then ['\\', 't']
  else if c = '\r' then ['\\', 'r']
  else if c = '\n' then ['\\', 'n']
  else if isInvisible c then codePointEscape c
  else [c]

/-- A character in single quotes. -/
def quotedChar (c : Char) : String := String.ofList ('\x27' :: (escape '\x27' c ++ ['\x27']))

/-- A string in double quotes. -/
def quoted (s : String) : String :=
  String.ofList ('\x22' :: (s.toList.flatMap (escape '\x22') ++ ['\x22']))

example : quoted "a\"b'\\\t\x1b" = "\"a\\\"b'\\\\\\t\\u\x7b1b\x7d\"" := by decide +kernel

example : quotedChar '\x27' = "'\\''" := by decide +kernel

end LambdaScript.Text
