import Rulebook.Rule.Codec

/-!
# Rulebook — Schema

What is known about the fields that rules speak of: a type for each, and the comparisons that make
sense for it.
-/

namespace Rulebook

/-- The type of a field. -/
inductive FieldType where
  | string
  | number
  | boolean
  | date
  | array
  | object
  deriving DecidableEq, Repr

namespace FieldType

/-- Every type. -/
def all : List FieldType := [.string, .number, .boolean, .date, .array, .object]

/-- The name in JSON. -/
def name : FieldType → String
  | .string => "string"
  | .number => "number"
  | .boolean => "boolean"
  | .date => "date"
  | .array => "array"
  | .object => "object"

def toJson (t : FieldType) : Json := .string t.name

def ofJson? : Json.Decoder FieldType := Json.asNamed (all.map fun t => (t.name, t))

/-- The comparisons that make sense for a type. -/
def comparisons : FieldType → List Comparison
  | .string => Comparison.all.filter fun c => !c.isOrdering
  | .number | .date => Comparison.all.filter fun c => !c.isTextual
  | .boolean | .object => [.equals, .notEquals]
  | .array => [.contains]

end FieldType

/-- What is known about one field. -/
structure FieldInfo where
  type : FieldType
  /-- The comparisons allowed, if they are not those of the type. -/
  comparisons : Option (List Comparison)
  deriving DecidableEq, Repr

namespace FieldInfo

/-- Whether a comparison is allowed. -/
def allows (info : FieldInfo) (c : Comparison) : Bool :=
  (info.comparisons.getD info.type.comparisons).contains c

def toJson (info : FieldInfo) : Json :=
  .object (("fieldType", info.type.toJson) ::
    (info.comparisons.map fun cs => ("operators", Json.array (cs.map Comparison.toJson))).toList)

def ofJson? : Json.Decoder FieldInfo := fun s j => do
  let r ← Json.Record.read ["fieldType", "operators"] s j
  some ⟨← r.required "fieldType" FieldType.ofJson?,
    ← r.optional "operators" (Json.asList Comparison.ofJson?)⟩

end FieldInfo

/-- The fields by their paths. -/
structure Schema where
  fields : KeyMap FieldInfo
  deriving DecidableEq, Repr

namespace Schema

/-- The schema without fields. -/
def empty : Schema := ⟨∅⟩

/-- Declares a field, in place of an earlier declaration. -/
def declare (s : Schema) (path : String) (info : FieldInfo) : Schema :=
  ⟨s.fields.insert path info⟩

/-- What is known about a field. -/
def lookup (s : Schema) (path : String) : Option FieldInfo := s.fields.get? path

def ofJson? : Json.Decoder Schema := fun s j => do
  let r ← Json.Record.read ["fields"] s j
  some ⟨← r.required "fields" (KeyMap.ofJson? FieldInfo.ofJson?)⟩

end Schema

end Rulebook
