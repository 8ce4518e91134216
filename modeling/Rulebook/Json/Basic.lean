import Rulebook.Decimal.Binary64

/-!
# Rulebook — Json — Basic

JSON values.  The members of an object are kept in the order in which they stand, repeated keys
included: what a repetition means is for the reader of the value to say.  Where a text has the form
of a value that cannot be held, the value is unreadable, which matters only to who looks at it.
-/

namespace Rulebook

/-- A JSON value.  Integers and floating-point numbers are different values. -/
inductive Json where
  | null
  | bool (b : Bool)
  | int (n : Int)
  | float (x : Binary64)
  | string (s : String)
  | array (items : List Json)
  | object (members : List (String × Json))
  /-- What is written like a value but cannot be held. -/
  | unreadable
  deriving Repr

namespace Json

instance : Inhabited Json := ⟨.null⟩

/-- The integers that a JSON number can be: those of 64 bits, signed or unsigned. -/
def inRange (n : Int) : Bool := -0x8000000000000000 ≤ n && n < 0x10000000000000000

/-- The integer of a natural number. -/
def nat (n : Nat) : Json := .int n

/-- A value, or null in its absence. -/
def orNull : Option Json → Json
  | none => .null
  | some j => j

/-- The member with a given key, the last one if the key is repeated. -/
def lookup (key : String) : List (String × Json) → Option Json
  | [] => none
  | (k, v) :: rest =>
    match lookup key rest with
    | some w => some w
    | none => if k = key then some v else none

/-- The member of an object with a given key. -/
def get? (key : String) : Json → Option Json
  | .object members => lookup key members
  | _ => none

mutual

/-- Whether no part of a value is unreadable. -/
def isReadable : Json → Bool
  | .array items => areReadable items
  | .object members => areReadableMembers members
  | .unreadable => false
  | _ => true

/-- Whether no part of several values is unreadable. -/
def areReadable : List Json → Bool
  | [] => true
  | j :: js => isReadable j && areReadable js

/-- Whether no part of the values of members is unreadable. -/
def areReadableMembers : List (String × Json) → Bool
  | [] => true
  | (_, j) :: rest => isReadable j && areReadableMembers rest

end

mutual

/-- The number of levels of nested arrays and objects, a scalar being one. -/
def height : Json → Nat
  | .array items => 1 + heightAll items
  | .object members => 1 + heightMembers members
  | _ => 1

/-- The most levels among several values. -/
def heightAll : List Json → Nat
  | [] => 0
  | j :: js => max (height j) (heightAll js)

/-- The most levels among the values of members. -/
def heightMembers : List (String × Json) → Nat
  | [] => 0
  | (_, j) :: rest => max (height j) (heightMembers rest)

end

mutual

/-- Equality of values: floating-point numbers by value, so that the two zeros agree, and
members in order. -/
def agrees : Json → Json → Bool
  | .null, .null => true
  | .bool a, .bool b => a = b
  | .int a, .int b => a = b
  | .float a, .float b => a.agrees b
  | .string a, .string b => a = b
  | .array a, .array b => agreesAll a b
  | .object a, .object b => agreesMembers a b
  | _, _ => false

/-- Agreement item by item. -/
def agreesAll : List Json → List Json → Bool
  | [], [] => true
  | a :: as, b :: bs => agrees a b && agreesAll as bs
  | _, _ => false

/-- Agreement member by member. -/
def agreesMembers : List (String × Json) → List (String × Json) → Bool
  | [], [] => true
  | (k, a) :: as, (k', b) :: bs => k = k' && agrees a b && agreesMembers as bs
  | _, _ => false

end

end Json

end Rulebook
