import QueryOptimizer.Text.Grapheme
import QueryOptimizer.Text.Ignorable
import QueryOptimizer.Text.Printable

/-!
Quoted text: a string between double quotes, with an escape for every character that a reader could
not see or would misread.
-/
namespace QueryOptimizer.Text

/-- A character written by its code point in lowercase hexadecimal. -/
def codeEscape (c : Char) : List Char :=
  ['\\', 'u', '\x7b'] ++ Nat.toDigits 16 c.toNat ++ ['\x7d']

/-- Characters that are not seen on their own: those that join the preceding character, those that
display ignores, and those that are not printable. -/
def isHidden (c : Char) : Bool :=
  (extendsGrapheme c && !isSpacingSoundMark c) || isIgnorable c || !isPrintable c

/-- The characters that stand for `c` between double quotes. -/
def escape (c : Char) : List Char :=
  if c = '\x00' then ['\\', '0']
  else if c = '\t' then ['\\', 't']
  else if c = '\r' then ['\\', 'r']
  else if c = '\n' then ['\\', 'n']
  else if c = '"' then ['\\', '"']
  else if c = '\\' then ['\\', '\\']
  else if isHidden c then codeEscape c
  else [c]

/-- The string between double quotes, each character escaped on its own. -/
def quote (text : String) : String :=
  String.ofList ('"' :: text.toList.flatMap escape ++ ['"'])

end QueryOptimizer.Text
