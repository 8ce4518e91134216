import Rulebook.Rule.Basic

/-!
# Rulebook — Rule — Codec

The JSON form of a rule: an object whose member `type` names the shape, followed by the members of
that shape, and last by `metadata` if there is a diagnostic record.
-/

namespace Rulebook

/-! ### Parts -/

namespace Condition

/-- The members of the JSON object. -/
def members (c : Condition) : List (String × Json) :=
  [("field", .string c.field), ("operator", c.comparison.toJson), ("value", c.value.toJson),
   ("valueType", c.kind.toJson)]

def toJson (c : Condition) : Json := .object c.members

/-- The names of the members. -/
def memberNames : List String := ["field", "operator", "value", "valueType"]

def ofRecord? (r : Json.Record) : Option Condition := do
  some ⟨← r.required "field" Json.asString, ← r.required "operator" Comparison.ofJson?,
    ← r.required "value" Literal.ofJson?, ← r.withDefault "valueType" .literal OperandKind.ofJson?⟩

def ofJson? : Json.Decoder Condition := fun s j =>
  (Json.Record.read memberNames s j).bind ofRecord?

end Condition

namespace Argument

def toJson (a : Argument) : Json :=
  .object [("value", a.value.toJson), ("kind", a.kind.toJson)]

def ofJson? : Json.Decoder Argument := fun s j => do
  let r ← Json.Record.read ["value", "kind"] s j
  some ⟨← r.required "value" Literal.ofJson?, ← r.withDefault "kind" .literal OperandKind.ofJson?⟩

end Argument

/-- The JSON object of a map. -/
def KeyMap.toJson (encode : α → Json) (m : KeyMap α) : Json :=
  .object (m.entries.map fun e => (e.1, encode e.2))

/-- Reads a map from an object; of a repeated key the last member stays. -/
def KeyMap.ofJson? (decode : Json.Decoder α) : Json.Decoder (KeyMap α)
  | s, .object members => do
    let entries ← members.mapM fun m => (decode s m.2).map fun v => (m.1, v)
    some (KeyMap.ofList entries)
  | _, _ => none

/-! ### Tags -/

/-- The shapes of the JSON form. -/
inductive Tag where
  | field
  | composite
  | conditional
  | forEach
  | uniqueBy
  | length
  | optional
  | withDefault
  | function
  | contextual
  | cardinality
  | expression
  | template
  | custom
  deriving DecidableEq, Repr

namespace Tag

/-- Every shape. -/
def all : List Tag :=
  [.field, .composite, .conditional, .forEach, .uniqueBy, .length, .optional, .withDefault,
   .function, .contextual, .cardinality, .expression, .template, .custom]

/-- The name that `type` holds. -/
def name : Tag → String
  | .field => "field"
  | .composite => "composite"
  | .conditional => "conditional"
  | .forEach => "forEach"
  | .uniqueBy => "uniqueBy"
  | .length => "length"
  | .optional => "optional"
  | .withDefault => "withDefault"
  | .function => "function"
  | .contextual => "contextual"
  | .cardinality => "cardinality"
  | .expression => "expression"
  | .template => "template"
  | .custom => "custom"

def ofJson? : Json.Decoder Tag := Json.asShape (all.map fun t => (t.name, t))

/-- The names of the members of a shape. -/
def memberNames : Tag → List String
  | .field => Condition.memberNames
  | .composite => ["operator", "specs"]
  | .conditional => ["conditional", "targetField", "condition"]
  | .forEach => ["arrayField", "item"]
  | .uniqueBy => ["arrayField", "key"]
  | .length => ["bound", "arrayField", "length"]
  | .optional => ["guard", "field", "spec"]
  | .withDefault => ["field", "default", "spec"]
  | .function => ["name", "args"]
  | .contextual => ["template"]
  | .cardinality => ["cardinality", "count", "specs"]
  | .expression => ["expression"]
  | .template => ["templateId", "params"]
  | .custom => ["name", "payload"]

end Tag

/-! ### Writing -/

namespace Atom

/-- The shape of an atom. -/
def tag : Atom → Tag
  | .condition _ => .field
  | .uniqueBy _ _ => .uniqueBy
  | .length _ _ _ => .length
  | .call _ _ => .function
  | .contextual _ => .contextual
  | .expression _ => .expression
  | .template _ _ => .template
  | .custom _ _ => .custom

/-- The members of the JSON object that are the atom's own. -/
def members : Atom → List (String × Json)
  | .condition c => c.members
  | .uniqueBy array key => [("arrayField", .string array), ("key", .string key)]
  | .length bound array limit =>
    [("bound", bound.toJson), ("arrayField", .string array), ("length", .nat limit.toNat)]
  | .call name args => [("name", .string name), ("args", .array (args.map Argument.toJson))]
  | .contextual source => [("template", .string source)]
  | .expression source => [("expression", .string source)]
  | .template id params => [("templateId", .string id), ("params", params.toJson Literal.toJson)]
  | .custom name payload => [("name", .string name), ("payload", payload.value)]

end Atom

namespace Scope

/-- The shape of a scope. -/
def tag : Scope → Tag
  | .conditional _ _ => .conditional
  | .forEach _ => .forEach
  | .guarded _ _ => .optional
  | .withDefault _ _ => .withDefault

/-- The members of the JSON object, with the rule inside the scope. -/
def members (body : Json) : Scope → List (String × Json)
  | .conditional requirement target =>
    [("conditional", requirement.toJson), ("targetField", .string target), ("condition", body)]
  | .forEach array => [("arrayField", .string array), ("item", body)]
  | .guarded guard field => [("guard", guard.toJson), ("field", .string field), ("spec", body)]
  | .withDefault field value =>
    [("field", .string field), ("default", value.toJson), ("spec", body)]

end Scope

namespace Junction

/-- The shape of a junction. -/
def tag : Junction → Tag
  | .connective _ => .composite
  | .quota _ _ => .cardinality

/-- The members of the JSON object, with the joined rules. -/
def members (specs : Json) : Junction → List (String × Json)
  | .connective op => [("operator", op.toJson), ("specs", specs)]
  | .quota kind count =>
    [("cardinality", kind.toJson), ("count", .nat count.toNat), ("specs", specs)]

end Junction

namespace Rule

/-- The shape of a rule. -/
def tag : Rule → Tag
  | .atom a _ => a.tag
  | .scope s _ _ => s.tag
  | .junction j _ _ => j.tag

/-- The member for the diagnostic record. -/
def noteMembers (note : Option Metadata) : List (String × Json) :=
  (note.map fun m => ("metadata", m.toJson)).toList

mutual

def toJson : Rule → Json
  | .atom a n => .object (("type", .string a.tag.name) :: (a.members ++ noteMembers n))
  | .scope s body n =>
    .object (("type", .string s.tag.name) :: (s.members (toJson body) ++ noteMembers n))
  | .junction j members n =>
    .object (("type", .string j.tag.name) ::
      (j.members (.array (toJsonAll members)) ++ noteMembers n))

/-- The JSON forms of several rules. -/
def toJsonAll : List Rule → List Json
  | [] => []
  | r :: rs => toJson r :: toJsonAll rs

end

/-! ### Reading -/

/-- Reads the members of a shape; `inner` reads the rules below. -/
def ofTag? (inner : Json.Decoder Rule) (r : Json.Record) (note : Option Metadata) :
    Tag → Option Rule
  | .field => do some (.atom (.condition (← Condition.ofRecord? r)) note)
  | .composite => do
    let op ← r.required "operator" Connective.ofJson?
    some (.junction (.connective op) (← r.required "specs" (Json.asList inner)) note)
  | .conditional => do
    let requirement ← r.required "conditional" Requirement.ofJson?
    let target ← r.required "targetField" Json.asString
    some (.scope (.conditional requirement target) (← r.required "condition" inner) note)
  | .forEach => do
    let array ← r.required "arrayField" Json.asString
    some (.scope (.forEach array) (← r.required "item" inner) note)
  | .uniqueBy => do
    let array ← r.required "arrayField" Json.asString
    some (.atom (.uniqueBy array (← r.required "key" Json.asString)) note)
  | .length => do
    let bound ← r.required "bound" LengthBound.ofJson?
    let array ← r.required "arrayField" Json.asString
    some (.atom (.length bound array (← r.required "length" Json.asUInt64)) note)
  | .optional => do
    let guard ← r.required "guard" Guard.ofJson?
    let field ← r.required "field" Json.asString
    some (.scope (.guarded guard field) (← r.required "spec" inner) note)
  | .withDefault => do
    let field ← r.required "field" Json.asString
    let value ← r.required "default" Literal.ofJson?
    some (.scope (.withDefault field value) (← r.required "spec" inner) note)
  | .function => do
    let name ← r.required "name" Json.asString
    some (.atom (.call name (← r.withDefault "args" [] (Json.asList Argument.ofJson?))) note)
  | .contextual => do some (.atom (.contextual (← r.required "template" Json.asString)) note)
  | .cardinality => do
    let kind ← r.required "cardinality" Quota.ofJson?
    let count ← r.required "count" Json.asUInt32
    some (.junction (.quota kind count) (← r.required "specs" (Json.asList inner)) note)
  | .expression => do some (.atom (.expression (← r.required "expression" Json.asString)) note)
  | .template => do
    let id ← r.required "templateId" Json.asString
    let params ← r.withDefault "params" ∅ (KeyMap.ofJson? Literal.ofJson?)
    some (.atom (.template id params) note)
  | .custom => do
    let name ← r.required "name" Json.asString
    let payload ← r.withDefault "payload" .null fun _ j => some (Payload.ofJson j)
    some (.atom (.custom name payload) note)

/-- Reads a rule; `inner` reads the rules below.  The diagnostic record is read in its place, and
what else there is waits for the name of the shape. -/
def ofJsonWith (inner : Json.Decoder Rule) : Json.Decoder Rule := fun s j => do
  let head ← Json.Record.readObject ["type", "metadata"] s j
  let tag ← head.aside.required "type" Tag.ofJson?
  let note ← head.optional "metadata" Metadata.ofJson?
  let r ← Json.Record.readObject tag.memberNames s j
  ofTag? inner r.aside note tag

/-- Reads a rule of at most `levels` levels. -/
def ofJsonWithin : (levels : Nat) → Json.Decoder Rule
  | 0, _, _ => none
  | levels + 1, s, j => ofJsonWith (ofJsonWithin levels) s j

/-- Whether all that is set aside can be: everything but the diagnostic record. -/
def isReadableAside : Json → Bool
  | .object members => Json.areReadableMembers (members.filter fun m => m.1 ≠ "metadata")
  | _ => false

/-- Reads a rule.  A rule has no more levels than its JSON form. -/
def ofJson? : Json.Decoder Rule := fun s j =>
  if isReadableAside j then ofJsonWithin j.height s j else none

end Rule

end Rulebook
