import Rulebook.Decimal.Numeral
import Rulebook.Decimal.Rounding
import Rulebook.Json.Record
import Rulebook.Text.Quoted

/-!
# Rulebook — Literal

The values that conditions, arguments, defaults and parameters hold, with their three forms: the
literal of a rule's text, and the JSON value they are written to and read from.
-/

namespace Rulebook

/-- A value.  Integers have 64 bits with a sign. -/
inductive Literal where
  | null
  | bool (b : Bool)
  | int (n : Int64)
  | float (x : Binary64)
  | string (s : String)
  deriving DecidableEq, Repr

namespace Literal

/-- The integers that a value can be: those of 64 bits with a sign. -/
def inRange (n : Int) : Bool := -0x8000000000000000 ≤ n && n < 0x8000000000000000

/-- Whether the value can be written in a rule's text: a number has to be finite. -/
def isRenderable : Literal → Bool
  | .float x => x.isFinite
  | _ => true

/-- The text of a string value. -/
def string? : Literal → Option String
  | .string s => some s
  | _ => none

/-- The name of the value's kind. -/
def kindName : Literal → String
  | .null => "Null"
  | .bool _ => "Bool"
  | .int _ => "Int"
  | .float _ => "Float"
  | .string _ => "String"

/-- Equality of values; floating-point numbers by value, so that the two zeros agree. -/
def agrees : Literal → Literal → Bool
  | .float a, .float b => a.agrees b
  | a, b => a = b

/-- The digits of an integer, with a sign in front of a negative one. -/
def integerText (n : Int64) : List Char :=
  (if n < 0 then ['-'] else []) ++ Decimal.digitsOf n.toInt.natAbs

/-- The value in a rule's text. -/
def render : Literal → List Char
  | .null => ['n', 'u', 'l', 'l']
  | .bool true => ['t', 'r', 'u', 'e']
  | .bool false => ['f', 'a', 'l', 's', 'e']
  | .int n => integerText n
  | .float x => x.ruleText
  | .string s => Text.quote s.toList

/-- The value in a rule's text, as a string. -/
def text (v : Literal) : String := String.ofList v.render

/-- The JSON value; a number that is not finite becomes null. -/
def toJson : Literal → Json
  | .null => .null
  | .bool b => .bool b
  | .int n => .int n.toInt
  | .float x => if x.isFinite then .float x else .null
  | .string s => .string s

/-- Reads a value; an integer too large for 64 bits with a sign becomes a floating-point number. -/
def ofJson? : Json.Decoder Literal
  | _, .null => some .null
  | _, .bool b => some (.bool b)
  | _, .int n =>
    if inRange n then some (.int (Int64.ofInt n))
    else some (.float (Binary64.ofDecimal (n < 0) n.natAbs 0))
  | _, .float x => some (.float x)
  | _, .string s => some (.string s)
  | _, _ => none

end Literal

end Rulebook
