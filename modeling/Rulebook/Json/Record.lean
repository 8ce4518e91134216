import Rulebook.Json.Reader

/-!
# Rulebook — Json — Record

Reading typed values out of JSON.  A record is an object, whose unknown members are passed over and
whose known ones appear once, or an array with the members in their order.  An enumeration is a
name, or an object whose only member has that name and stands for nothing.

Some values cannot be read in their place, because what they are depends on something else.  They
are copied first.  A copy is readable as a whole, whether or not its reader looks at all of it, and
a little more counts as the name of a shape or as nothing in it: see `Standing`.
-/

namespace Rulebook.Json

/-- Where a value stands when it is read. -/
inductive Standing where
  /-- In its own place. -/
  | inPlace
  /-- In a copy that is held out to several readers.  A shape may be given by its number. -/
  | heldOut
  /-- In a copy of members that waits for the name of their shape.  A shape may be given by its
  number, and an empty object counts as nothing. -/
  | setAside
  deriving DecidableEq, Repr

/-- A reader of typed values. -/
abbrev Decoder (α : Type) := Standing → Json → Option α

/-- Reads a value from a whole text. -/
def ofText? (decode : Decoder α) (text : String) : Option α :=
  (form? text.toList).bind (decode .inPlace)

/-- Reads a value from a copy, all of which has to be readable. -/
def ofCopy (decode : Decoder α) : Decoder α := fun s j =>
  if j.isReadable then decode s j else none

/-- A string. -/
def asString : Decoder String
  | _, .string s => some s
  | _, _ => none

/-- A truth value. -/
def asBool : Decoder Bool
  | _, .bool b => some b
  | _, _ => none

/-- An integer from zero up to but without `bound`. -/
def asNatBelow (bound : Nat) : Decoder Nat
  | _, .int n => if 0 ≤ n && n < bound then some n.toNat else none
  | _, _ => none

/-- A count or position: a natural number of 64 bits. -/
def asNat : Decoder Nat := asNatBelow UInt64.size

/-- A 64-bit unsigned integer. -/
def asUInt64 : Decoder UInt64 := fun s j => (asNatBelow UInt64.size s j).map UInt64.ofNat

/-- A 32-bit unsigned integer. -/
def asUInt32 : Decoder UInt32 := fun s j => (asNatBelow UInt32.size s j).map UInt32.ofNat

/-- Null, or a value. -/
def asNullable (decode : Decoder α) : Decoder (Option α)
  | _, .null => some none
  | s, j => (decode s j).map some

/-- An array of values. -/
def asList (decode : Decoder α) : Decoder (List α)
  | s, .array items => items.mapM (decode s)
  | _, _ => none

/-- The value of a name in a table. -/
def named (table : List (String × α)) (name : String) : Option α :=
  (table.find? fun e => e.1 = name).map Prod.snd

/-- Whether a value stands for nothing. -/
def isNothing : Standing → Json → Bool
  | _, .null => true
  | .setAside, .object [] => true
  | _, _ => false

/-- One of the values of an enumeration. -/
def asNamed (table : List (String × α)) : Decoder α
  | _, .string name => named table name
  | s, .object [(name, j)] => if isNothing s j then named table name else none
  | _, _ => none

/-- The shape of a value, by its name or, in a copy, by its place among the shapes. -/
def asShape (shapes : List (String × α)) : Decoder α
  | _, .string name => named shapes name
  | .inPlace, _ => none
  | _, .int n => if 0 ≤ n then (shapes[n.toNat]?).map Prod.snd else none
  | _, _ => none

/-- The members of a record. -/
structure Record where
  get? : String → Option Json
  /-- Where the members stand. -/
  standing : Standing
  /-- The members are told apart by their place, so that none but the last ones can be left out. -/
  byPlace : Bool

namespace Record

/-- Whether no known name is repeated. -/
def unrepeated (names : List String) (members : List (String × Json)) : Bool :=
  names.all fun name => (members.filter fun m => m.1 = name).length ≤ 1

/-- The record of an object. -/
def ofMembers (names : List String) (standing : Standing) (members : List (String × Json)) :
    Option Record :=
  if unrepeated names members then some ⟨fun name => lookup name members, standing, false⟩ else none

/-- The record of an array of members. -/
def ofItems (names : List String) (standing : Standing) (items : List Json) : Option Record :=
  if items.length ≤ names.length then
    some ⟨fun name => (names.zip items).lookup name, standing, true⟩
  else none

/-- A record with members of the given names. -/
def read (names : List String) : Decoder Record
  | s, .object members => ofMembers names s members
  | s, .array items => ofItems names s items
  | _, _ => none

/-- A record that has to be an object. -/
def readObject (names : List String) : Decoder Record
  | s, .object members => ofMembers names s members
  | _, _ => none

/-- The same members, set aside. -/
def aside (r : Record) : Record := { r with standing := .setAside }

/-- A member that has to be there. -/
def required (r : Record) (name : String) (decode : Decoder α) : Option α :=
  (r.get? name).bind (decode r.standing)

/-- A member that may be null, and may be missing from an object. -/
def nullable (r : Record) (name : String) (decode : Decoder α) : Option (Option α) :=
  match r.get? name with
  | none => if r.byPlace then none else some none
  | some j => asNullable decode r.standing j

/-- A member that may be missing. -/
def withDefault (r : Record) (name : String) (default : α) (decode : Decoder α) : Option α :=
  match r.get? name with
  | none => some default
  | some j => decode r.standing j

/-- A member that may be null or missing. -/
def optional (r : Record) (name : String) (decode : Decoder α) : Option (Option α) :=
  r.withDefault name none (asNullable decode)

end Record

end Rulebook.Json
