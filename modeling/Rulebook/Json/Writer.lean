import Rulebook.Json.Basic
import Rulebook.Decimal.Numeral

/-!
# Rulebook — Json — Writer

JSON text.  Strings escape the quote, the backslash and the control characters below U+0020 and
nothing else; what cannot be held, such as a floating-point number that is not finite, is written
as null.  The compact form has no blanks; the spread form puts every item and member on a line of
its own.
-/

namespace Rulebook.Json

/-- One hexadecimal digit, in lower case. -/
def hexDigit (n : Nat) : Char := Nat.digitChar (n % 16)

/-- How one character is written inside a JSON string. -/
def escapeChar (c : Char) : List Char :=
  if c = '"' then ['\\', '"']
  else if c = '\\' then ['\\', '\\']
  else if c = '\n' then ['\\', 'n']
  else if c = '\r' then ['\\', 'r']
  else if c = '\t' then ['\\', 't']
  else if c = '\x08' then ['\\', 'b']
  else if c = '\x0c' then ['\\', 'f']
  else if c.toNat < 0x20 then
    ['\\', 'u', '0', '0', hexDigit (c.toNat / 16), hexDigit c.toNat]
  else [c]

/-- The JSON string of a text. -/
def writeString (s : String) : List Char :=
  '"' :: (s.toList.flatMap escapeChar ++ ['"'])

/-- The digits of an integer, with a sign in front of a negative one. -/
def writeInt (n : Int) : List Char :=
  (if n < 0 then ['-'] else []) ++ Decimal.digitsOf n.natAbs

/-- A floating-point number, or null for one that JSON cannot hold. -/
def writeFloat (x : Binary64) : List Char :=
  if x.isFinite then x.jsonText else ['n', 'u', 'l', 'l']

mutual

/-- The compact text of a value. -/
def write : Json → List Char
  | .null => ['n', 'u', 'l', 'l']
  | .bool true => ['t', 'r', 'u', 'e']
  | .bool false => ['f', 'a', 'l', 's', 'e']
  | .int n => writeInt n
  | .float x => writeFloat x
  | .string s => writeString s
  | .array items => '[' :: (writeItems items ++ [']'])
  | .object members => '\x7b' :: (writeMembers members ++ ['\x7d'])
  | .unreadable => ['n', 'u', 'l', 'l']

/-- Items with a comma between them. -/
def writeItems : List Json → List Char
  | [] => []
  | [j] => write j
  | j :: k :: rest => write j ++ ',' :: writeItems (k :: rest)

/-- Members with a comma between them. -/
def writeMembers : List (String × Json) → List Char
  | [] => []
  | [(key, j)] => writeString key ++ ':' :: write j
  | (key, j) :: m :: rest => writeString key ++ ':' :: (write j ++ ',' :: writeMembers (m :: rest))

end

/-- A line feed and the indentation of a level, two spaces each. -/
def newline (level : Nat) : List Char := '\n' :: List.replicate (2 * level) ' '

mutual

/-- The spread text of a value that starts on a line of a given level. -/
def spreadFrom (level : Nat) : Json → List Char
  | .array (j :: js) => '[' :: (spreadItems (level + 1) (j :: js) ++ newline level ++ [']'])
  | .object (m :: ms) =>
    '\x7b' :: (spreadMembers (level + 1) (m :: ms) ++ newline level ++ ['\x7d'])
  | j => write j

/-- Items, each on its own line, with a comma after all but the last. -/
def spreadItems (level : Nat) : List Json → List Char
  | [] => []
  | [j] => newline level ++ spreadFrom level j
  | j :: k :: rest => newline level ++ spreadFrom level j ++ ',' :: spreadItems level (k :: rest)

/-- Members, each on its own line, with a comma after all but the last. -/
def spreadMembers (level : Nat) : List (String × Json) → List Char
  | [] => []
  | [(key, j)] => newline level ++ writeString key ++ ':' :: ' ' :: spreadFrom level j
  | (key, j) :: m :: rest =>
    newline level ++ writeString key ++ ':' :: ' ' ::
      (spreadFrom level j ++ ',' :: spreadMembers level (m :: rest))

end

/-- The compact text of a value. -/
def text (j : Json) : String := String.ofList j.write

/-- The spread text of a value. -/
def spreadText (j : Json) : String := String.ofList (spreadFrom 0 j)

end Rulebook.Json
