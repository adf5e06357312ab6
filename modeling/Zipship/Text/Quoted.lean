import Zipship.Text.Printable

/-!
# Quoted text

`quoted` writes a text between double quotes so that every character of it can be seen: the quote
and the backslash are escaped, the common controls have letters, and every other character that
has no visible form of its own, or that would attach to its neighbour, is written by its code point.
-/

namespace Zipship.Text

/-- The code point in hexadecimal, between braces. -/
def codePointEscape (c : Char) : List Char :=
  ['\\', 'u', '\x7b'] ++ Nat.toDigits 16 c.toNat ++ ['\x7d']

/-- How one character is written inside quotes. -/
def quotedChar (c : Char) : List Char :=
  if c = '\x00' then ['\\', '0']
  else if c = '\t' then ['\\', 't']
  else if c = '\n' then ['\\', 'n']
  else if c = '\r' then ['\\', 'r']
  else if c = '"' then ['\\', '"']
  else if c = '\\' then ['\\', '\\']
  else if extendsGrapheme c || !isPrintable c then codePointEscape c
  else [c]

/-- The text between double quotes, with every character of it visible. -/
def quoted (s : String) : String :=
  String.ofList ('"' :: s.toList.flatMap quotedChar ++ ['"'])

end Zipship.Text
