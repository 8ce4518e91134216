import Rulebook.Rule.Basic

/-!
# Rulebook — Node — Basic

Nodes: rules as they are edited.  A node has an id, a label, a configuration that may still be
incomplete, and children, each of which is either given by its id or embedded.
-/

namespace Rulebook

/-- The kinds of nodes. -/
inductive NodeKind where
  | fieldCondition
  | andGroup
  | orGroup
  | notGroup
  | xorGroup
  | impliesGroup
  | requiredIf
  | visibleIf
  | disabledIf
  | readonlyIf
  | forEach
  | uniqueBy
  | minLength
  | maxLength
  | ifDefined
  | ifNotNull
  | ifExists
  | withDefault
  | functionCall
  | fieldToField
  | contextual
  | atLeast
  | exactly
  | expression
  | contextualTemplate
  | custom
  deriving DecidableEq, Repr

namespace NodeKind

/-- Every kind. -/
def all : List NodeKind :=
  [.fieldCondition, .andGroup, .orGroup, .notGroup, .xorGroup, .impliesGroup, .requiredIf,
   .visibleIf, .disabledIf, .readonlyIf, .forEach, .uniqueBy, .minLength, .maxLength, .ifDefined,
   .ifNotNull, .ifExists, .withDefault, .functionCall, .fieldToField, .contextual, .atLeast,
   .exactly, .expression, .contextualTemplate, .custom]

/-- The name, in messages and in JSON. -/
def name : NodeKind → String
  | .fieldCondition => "fieldCondition"
  | .andGroup => "andGroup"
  | .orGroup => "orGroup"
  | .notGroup => "notGroup"
  | .xorGroup => "xorGroup"
  | .impliesGroup => "impliesGroup"
  | .requiredIf => "requiredIf"
  | .visibleIf => "visibleIf"
  | .disabledIf => "disabledIf"
  | .readonlyIf => "readonlyIf"
  | .forEach => "forEach"
  | .uniqueBy => "uniqueBy"
  | .minLength => "minLength"
  | .maxLength => "maxLength"
  | .ifDefined => "ifDefined"
  | .ifNotNull => "ifNotNull"
  | .ifExists => "ifExists"
  | .withDefault => "withDefault"
  | .functionCall => "functionCall"
  | .fieldToField => "fieldToField"
  | .contextual => "contextual"
  | .atLeast => "atLeast"
  | .exactly => "exactly"
  | .expression => "expression"
  | .contextualTemplate => "contextualTemplate"
  | .custom => "custom"

/-- The label of a new node that is given none. -/
def label : NodeKind → String
  | .fieldCondition => "Field Condition"
  | .andGroup => "AND Group"
  | .orGroup => "OR Group"
  | .notGroup => "NOT Group"
  | .xorGroup => "XOR Group"
  | .impliesGroup => "IMPLIES Group"
  | .requiredIf => "Required If"
  | .visibleIf => "Visible If"
  | .disabledIf => "Disabled If"
  | .readonlyIf => "Readonly If"
  | .forEach => "For Each"
  | .uniqueBy => "Unique By"
  | .minLength => "Min Length"
  | .maxLength => "Max Length"
  | .ifDefined => "If Defined"
  | .ifNotNull => "If Not Null"
  | .ifExists => "If Exists"
  | .withDefault => "With Default"
  | .functionCall => "Function Call"
  | .fieldToField => "Field Comparison"
  | .contextual => "Contextual"
  | .atLeast => "At Least"
  | .exactly => "Exactly"
  | .expression => "Expression"
  | .contextualTemplate => "Contextual Template"
  | .custom => "Custom"

def ofJson? : Json.Decoder NodeKind := Json.asNamed (all.map fun k => (k.name, k))

end NodeKind

/-- The configuration of a node.  What a rule needs may be absent while the node is edited. -/
inductive Config where
  | fieldCondition (field : Option String) (comparison : Option Comparison)
    (value : Option Literal)
  | group (op : Connective)
  | conditional (requirement : Requirement) (target : Option String)
  | forEach (array : Option String)
  | uniqueBy (array : Option String) (key : Option String)
  | length (bound : LengthBound) (array : Option String) (limit : Option UInt64)
  | guarded (guard : Guard) (field : Option String)
  | withDefault (field : Option String) (value : Option Literal)
  | call (name : Option String) (args : List Argument)
  | fieldToField (left : Option String) (comparison : Option Comparison) (right : Option String)
  | contextual (source : Option String)
  | quota (kind : Quota) (count : Option UInt32)
  | expression (source : Option String)
  | template (id : Option String) (params : KeyMap Literal)
  | custom (name : Option String) (payload : Payload)
  deriving Repr

namespace Config

/-- The configuration of a new node. -/
def empty : NodeKind → Config
  | .fieldCondition => .fieldCondition none none none
  | .andGroup => .group .and
  | .orGroup => .group .or
  | .notGroup => .group .not
  | .xorGroup => .group .xor
  | .impliesGroup => .group .implies
  | .requiredIf => .conditional .requiredIf none
  | .visibleIf => .conditional .visibleIf none
  | .disabledIf => .conditional .disabledIf none
  | .readonlyIf => .conditional .readonlyIf none
  | .forEach => .forEach none
  | .uniqueBy => .uniqueBy none none
  | .minLength => .length .min none none
  | .maxLength => .length .max none none
  | .ifDefined => .guarded .ifDefined none
  | .ifNotNull => .guarded .ifNotNull none
  | .ifExists => .guarded .ifExists none
  | .withDefault => .withDefault none none
  | .functionCall => .call none []
  | .fieldToField => .fieldToField none none none
  | .contextual => .contextual none
  | .atLeast => .quota .atLeast none
  | .exactly => .quota .exactly none
  | .expression => .expression none
  | .contextualTemplate => .template none ∅
  | .custom => .custom none .null

/-- The kind of a node with this configuration. -/
def kind : Config → NodeKind
  | .fieldCondition _ _ _ => .fieldCondition
  | .group .and => .andGroup
  | .group .or => .orGroup
  | .group .not => .notGroup
  | .group .xor => .xorGroup
  | .group .implies => .impliesGroup
  | .conditional .requiredIf _ => .requiredIf
  | .conditional .visibleIf _ => .visibleIf
  | .conditional .disabledIf _ => .disabledIf
  | .conditional .readonlyIf _ => .readonlyIf
  | .forEach _ => .forEach
  | .uniqueBy _ _ => .uniqueBy
  | .length .min _ _ => .minLength
  | .length .max _ _ => .maxLength
  | .guarded .ifDefined _ => .ifDefined
  | .guarded .ifNotNull _ => .ifNotNull
  | .guarded .ifExists _ => .ifExists
  | .withDefault _ _ => .withDefault
  | .call _ _ => .functionCall
  | .fieldToField _ _ _ => .fieldToField
  | .contextual _ => .contextual
  | .quota .atLeast _ => .atLeast
  | .quota .exactly _ => .exactly
  | .expression _ => .expression
  | .template _ _ => .contextualTemplate
  | .custom _ _ => .custom

theorem kind_empty (k : NodeKind) : (empty k).kind = k := by cases k <;> rfl

/-- The number of children, if it is fixed. -/
def arity : Config → Option Nat
  | .group _ | .quota _ _ => none
  | .conditional _ _ | .forEach _ | .guarded _ _ | .withDefault _ _ => some 1
  | .fieldCondition _ _ _ | .uniqueBy _ _ | .length _ _ _ | .call _ _ | .fieldToField _ _ _
  | .contextual _ | .expression _ | .template _ _ | .custom _ _ => some 0

/-- Whether a text is there and not empty. -/
def isGiven (s : Option String) : Bool :=
  match s with
  | some s => s != ""
  | none => false

/-- The parts that a rule needs, by their names in JSON, and whether they are there. -/
def needed : Config → List (String × Bool)
  | .fieldCondition field comparison value =>
    [("field", isGiven field), ("operator", comparison.isSome), ("value", value.isSome)]
  | .fieldToField left comparison right =>
    [("left", isGiven left), ("operator", comparison.isSome), ("right", isGiven right)]
  | .group _ => []
  | .conditional _ target => [("targetField", isGiven target)]
  | .forEach array => [("arrayField", isGiven array)]
  | .uniqueBy array key => [("arrayField", isGiven array), ("key", isGiven key)]
  | .length _ array limit => [("arrayField", isGiven array), ("length", limit.isSome)]
  | .guarded _ field => [("field", isGiven field)]
  | .withDefault field value => [("field", isGiven field), ("default", value.isSome)]
  | .call name _ => [("name", isGiven name)]
  | .contextual source => [("template", isGiven source)]
  | .quota _ count => [("count", count.isSome)]
  | .expression source => [("expression", isGiven source)]
  | .template id _ => [("templateId", isGiven id)]
  | .custom name _ => [("name", isGiven name)]

/-- The names of the parts that a rule needs and that are absent or empty. -/
def missing (c : Config) : List String :=
  (c.needed.filter fun part => !part.2).map Prod.fst

end Config

mutual

/-- A node of an edited tree. -/
structure Node where
  id : String
  label : Option String
  note : Option Metadata
  children : List Entry
  parent : Option String
  config : Config

/-- A child of a node: its id, or the child itself. -/
inductive Entry where
  | ref (id : String)
  | node (n : Node)

end

/-- The id of a child. -/
def Entry.id : Entry → String
  | .ref id => id
  | .node n => n.id

/-- The child itself, if it is embedded. -/
def Entry.node? : Entry → Option Node
  | .ref _ => none
  | .node n => some n

namespace Node

/-- A node without label, record, children and parent. -/
def bare (id : String) (config : Config) : Node := ⟨id, none, none, [], none, config⟩

/-- The kind of the node. -/
def kind (n : Node) : NodeKind := n.config.kind

/-- The ids of the children, in order. -/
def childIds (n : Node) : List String := n.children.map Entry.id

/-- The embedded children, in order. -/
def embedded (n : Node) : List Node := n.children.filterMap Entry.node?

mutual

/-- The number of nodes in the embedded tree. -/
def count : Node → Nat
  | ⟨_, _, _, children, _, _⟩ => 1 + countEntries children

/-- The number of nodes in several embedded trees. -/
def countEntries : List Entry → Nat
  | [] => 0
  | .ref _ :: es => countEntries es
  | .node n :: es => count n + countEntries es

end

mutual

/-- The number of levels of the embedded tree. -/
def depth : Node → Nat
  | ⟨_, _, _, children, _, _⟩ => 1 + depthEntries children

/-- The most levels among several embedded trees. -/
def depthEntries : List Entry → Nat
  | [] => 0
  | .ref _ :: es => depthEntries es
  | .node n :: es => max (depth n) (depthEntries es)

end

end Node

end Rulebook
