import Rulebook.Text.Printable

/-!
# Rulebook — Text — Escaped

How a message shows a string so that every character of it can be seen: between double quotes,
with short escapes for the common controls and the code point in braces for any other character
that is not plain.
-/

namespace Rulebook.Text

/-- The code point of a character, in lower-case hexadecimal digits. -/
def hexDigits (c : Char) : List Char := Nat.toDigits 16 c.toNat

/-- How one character is shown. -/
def showChar (c : Char) : List Char :=
  if c = '\x00' then ['\\', '0']
  else if c = '\t' then ['\\', 't']
  else if c = '\r' then ['\\', 'r']
  else if c = '\n' then ['\\', 'n']
  else if c = '\\' then ['\\', '\\']
  else if c = '"' then ['\\', '"']
  else if isPlain c then [c]
  else ['\\', 'u', '\x7b'] ++ hexDigits c ++ ['\x7d']

/-- How a message shows a string. -/
def shown (s : String) : String :=
  String.ofList ('"' :: (s.toList.flatMap showChar ++ ['"']))

end Rulebook.Text
