import Rulebook.Node.Basic
import Rulebook.Rule.Codec

/-!
# Rulebook — Node — Codec

The JSON forms of configurations and nodes.  A configuration is an object whose member `kind` names
its shape; what is absent in it is null.  A node leaves out its label, record and parent when it
has none.
-/

namespace Rulebook

/-- The shapes of the JSON form of a configuration. -/
inductive ConfigTag where
  | fieldCondition
  | group
  | conditional
  | forEach
  | uniqueBy
  | length
  | optional
  | withDefault
  | functionCall
  | fieldToField
  | contextual
  | cardinality
  | expression
  | contextualTemplate
  | custom
  deriving DecidableEq, Repr

namespace ConfigTag

/-- Every shape. -/
def all : List ConfigTag :=
  [.fieldCondition, .group, .conditional, .forEach, .uniqueBy, .length, .optional, .withDefault,
   .functionCall, .fieldToField, .contextual, .cardinality, .expression, .contextualTemplate,
   .custom]

/-- The name that `kind` holds. -/
def name : ConfigTag → String
  | .fieldCondition => "fieldCondition"
  | .group => "group"
  | .conditional => "conditional"
  | .forEach => "forEach"
  | .uniqueBy => "uniqueBy"
  | .length => "length"
  | .optional => "optional"
  | .withDefault => "withDefault"
  | .functionCall => "functionCall"
  | .fieldToField => "fieldToField"
  | .contextual => "contextual"
  | .cardinality => "cardinality"
  | .expression => "expression"
  | .contextualTemplate => "contextualTemplate"
  | .custom => "custom"

def ofJson? : Json.Decoder ConfigTag := Json.asShape (all.map fun t => (t.name, t))

/-- The names of the members of a shape. -/
def memberNames : ConfigTag → List String
  | .fieldCondition => ["field", "operator", "value"]
  | .group => ["operator"]
  | .conditional => ["conditional", "targetField"]
  | .forEach => ["arrayField"]
  | .uniqueBy => ["arrayField", "key"]
  | .length => ["bound", "arrayField", "length"]
  | .optional => ["guard", "field"]
  | .withDefault => ["field", "default"]
  | .functionCall => ["name", "args"]
  | .fieldToField => ["left", "operator", "right"]
  | .contextual => ["template"]
  | .cardinality => ["cardinality", "count"]
  | .expression => ["expression"]
  | .contextualTemplate => ["templateId", "params"]
  | .custom => ["name", "payload"]

end ConfigTag

namespace Config

/-- The shape of a configuration. -/
def tag : Config → ConfigTag
  | .fieldCondition _ _ _ => .fieldCondition
  | .group _ => .group
  | .conditional _ _ => .conditional
  | .forEach _ => .forEach
  | .uniqueBy _ _ => .uniqueBy
  | .length _ _ _ => .length
  | .guarded _ _ => .optional
  | .withDefault _ _ => .withDefault
  | .call _ _ => .functionCall
  | .fieldToField _ _ _ => .fieldToField
  | .contextual _ => .contextual
  | .quota _ _ => .cardinality
  | .expression _ => .expression
  | .template _ _ => .contextualTemplate
  | .custom _ _ => .custom

/-- A string, or null in its absence. -/
def stringOrNull (s : Option String) : Json := Json.orNull (s.map .string)

/-- The members of the JSON object behind `kind`. -/
def members : Config → List (String × Json)
  | .fieldCondition field comparison value =>
    [("field", stringOrNull field), ("operator", Json.orNull (comparison.map Comparison.toJson)),
     ("value", Json.orNull (value.map Literal.toJson))]
  | .group op => [("operator", op.toJson)]
  | .conditional requirement target =>
    [("conditional", requirement.toJson), ("targetField", stringOrNull target)]
  | .forEach array => [("arrayField", stringOrNull array)]
  | .uniqueBy array key => [("arrayField", stringOrNull array), ("key", stringOrNull key)]
  | .length bound array limit =>
    [("bound", bound.toJson), ("arrayField", stringOrNull array),
     ("length", Json.orNull (limit.map fun n => .nat n.toNat))]
  | .guarded guard field => [("guard", guard.toJson), ("field", stringOrNull field)]
  | .withDefault field value =>
    [("field", stringOrNull field), ("default", Json.orNull (value.map Literal.toJson))]
  | .call name args =>
    [("name", stringOrNull name), ("args", .array (args.map Argument.toJson))]
  | .fieldToField left comparison right =>
    [("left", stringOrNull left), ("operator", Json.orNull (comparison.map Comparison.toJson)),
     ("right", stringOrNull right)]
  | .contextual source => [("template", stringOrNull source)]
  | .quota kind count =>
    [("cardinality", kind.toJson), ("count", Json.orNull (count.map fun n => .nat n.toNat))]
  | .expression source => [("expression", stringOrNull source)]
  | .template id params =>
    [("templateId", stringOrNull id), ("params", params.toJson Literal.toJson)]
  | .custom name payload => [("name", stringOrNull name), ("payload", payload.value)]

def toJson (c : Config) : Json := .object (("kind", .string c.tag.name) :: c.members)

/-- Reads the members of a shape. -/
def ofTag? (r : Json.Record) : ConfigTag → Option Config
  | .fieldCondition => do
    some (.fieldCondition (← r.nullable "field" Json.asString)
      (← r.nullable "operator" Comparison.ofJson?) (← r.nullable "value" Literal.ofJson?))
  | .group => do some (.group (← r.required "operator" Connective.ofJson?))
  | .conditional => do
    some (.conditional (← r.required "conditional" Requirement.ofJson?)
      (← r.nullable "targetField" Json.asString))
  | .forEach => do some (.forEach (← r.nullable "arrayField" Json.asString))
  | .uniqueBy => do
    some (.uniqueBy (← r.nullable "arrayField" Json.asString) (← r.nullable "key" Json.asString))
  | .length => do
    some (.length (← r.required "bound" LengthBound.ofJson?)
      (← r.nullable "arrayField" Json.asString) (← r.nullable "length" Json.asUInt64))
  | .optional => do
    some (.guarded (← r.required "guard" Guard.ofJson?) (← r.nullable "field" Json.asString))
  | .withDefault => do
    some (.withDefault (← r.nullable "field" Json.asString)
      (← r.nullable "default" Literal.ofJson?))
  | .functionCall => do
    some (.call (← r.nullable "name" Json.asString)
      (← r.withDefault "args" [] (Json.asList Argument.ofJson?)))
  | .fieldToField => do
    some (.fieldToField (← r.nullable "left" Json.asString)
      (← r.nullable "operator" Comparison.ofJson?) (← r.nullable "right" Json.asString))
  | .contextual => do some (.contextual (← r.nullable "template" Json.asString))
  | .cardinality => do
    some (.quota (← r.required "cardinality" Quota.ofJson?)
      (← r.nullable "count" Json.asUInt32))
  | .expression => do some (.expression (← r.nullable "expression" Json.asString))
  | .contextualTemplate => do
    some (.template (← r.nullable "templateId" Json.asString)
      (← r.withDefault "params" ∅ (KeyMap.ofJson? Literal.ofJson?)))
  | .custom => do
    some (.custom (← r.nullable "name" Json.asString)
      (← r.withDefault "payload" .null fun _ j => some (Payload.ofJson j)))

/-- Reads the parts of a configuration: an object, or an array of its shape and its members.  The
members are set aside until the shape is known. -/
def ofParts? : Json.Decoder Config
  | s, .object members => do
    let head ← Json.Record.ofMembers ["kind"] s members
    let tag ← head.required "kind" ConfigTag.ofJson?
    let r ← Json.Record.ofMembers tag.memberNames s members
    ofTag? r.aside tag
  | s, .array (head :: items) => do
    let tag ← ConfigTag.ofJson? s head
    let r ← Json.Record.ofItems tag.memberNames s items
    ofTag? r.aside tag
  | _, _ => none

def ofJson? : Json.Decoder Config := Json.ofCopy ofParts?

end Config

namespace Node

/-- A member that is left out in the absence of a value. -/
def memberIfAny (name : String) (encode : α → Json) (a : Option α) : List (String × Json) :=
  (a.map fun a => (name, encode a)).toList

mutual

def toJson : Node → Json
  | ⟨id, label, note, children, parent, config⟩ =>
    .object (("id", .string id) ::
      (memberIfAny "label" .string label ++ memberIfAny "metadata" Metadata.toJson note ++
        ("children", .array (entriesToJson children)) ::
        (memberIfAny "parentId" .string parent ++ [("config", config.toJson)])))

/-- The JSON forms of children: a string for an id. -/
def entriesToJson : List Entry → List Json
  | [] => []
  | .ref id :: es => .string id :: entriesToJson es
  | .node n :: es => toJson n :: entriesToJson es

end

/-- The names of the members. -/
def memberNames : List String := ["id", "label", "metadata", "children", "parentId", "config"]

/-- Reads a child, which is held out both as an id and as a node; `inner` reads a node. -/
def entryOfJson? (inner : Json.Decoder Node) : Json.Decoder Entry
  | _, .string id => some (.ref id)
  | _, j => (Json.ofCopy inner .heldOut j).map .node

/-- Reads a node; `inner` reads embedded children. -/
def ofJsonWith (inner : Json.Decoder Node) : Json.Decoder Node := fun s j => do
  let r ← Json.Record.read memberNames s j
  some {
    id := ← r.required "id" Json.asString
    label := ← r.optional "label" Json.asString
    note := ← r.optional "metadata" Metadata.ofJson?
    children := ← r.withDefault "children" [] (Json.asList (entryOfJson? inner))
    parent := ← r.optional "parentId" Json.asString
    config := ← r.required "config" Config.ofJson? }

/-- Reads a node of at most `levels` levels. -/
def ofJsonWithin : (levels : Nat) → Json.Decoder Node
  | 0, _, _ => none
  | levels + 1, s, j => ofJsonWith (ofJsonWithin levels) s j

/-- Reads a node.  A node has no more levels than its JSON form. -/
def ofJson? : Json.Decoder Node := fun s j => ofJsonWithin j.height s j

end Node

end Rulebook
