import Rulebook.Dsl.Printer
import Rulebook.Node.Basic

/-!
# Rulebook — Node — Convert

The two ways between rules and embedded node trees.  Both carry diagnostic records along; labels,
ids and parents belong to nodes alone.  A node becomes a rule once nothing in it is missing; a rule
becomes a tree of nodes with new ids.
-/

namespace Rulebook

/-- Why a node tree is no rule, or a rule no node tree. -/
inductive ConversionError where
  | missingField (node : String) (kind : NodeKind) (field : String)
  | childCount (node : String) (kind : NodeKind) (expected actual : Nat)
  /-- A child is given by its id only. -/
  | unresolvedChild (node child : String)
  | reservedName (name : String)
  | emptyName (what : String)
  /-- A field is named by something other than a string. -/
  | invalidReference (value : Literal)
  | tooDeep (depth : Nat)
  deriving DecidableEq, Repr

namespace ConversionError

/-- The wording. -/
def message : ConversionError → String
  | .missingField node kind field =>
    "node '" ++ node ++ "' (" ++ kind.name ++ ") is missing required field '" ++ field ++ "'"
  | .childCount node kind expected actual =>
    s!"node '{node}' ({kind.name}) expects {expected} child, found {actual}"
  | .unresolvedChild node child =>
    "child '" ++ child ++ "' of node '" ++ node ++
      "' is not embedded; build the complete tree first"
  | .reservedName name => "function name '" ++ name ++ "' is reserved by the DSL"
  | .emptyName what => "specification has an empty " ++ what
  | .invalidReference value => "field reference must be a field name, found " ++ value.text
  | .tooDeep depth =>
    s!"tree is {depth} levels deep, more than the limit of {nestingLimit}"

end ConversionError

/-- A rule without the rules below it. -/
inductive Head where
  | atom (a : Atom)
  | scope (s : Scope)
  | junction (j : Junction)
  deriving Repr

/-! ### From nodes to rules -/

namespace Node

/-- A text that has to be there and not empty. -/
def needText (n : Node) (field : String) (value : Option String) :
    Except ConversionError String :=
  match value with
  | some s => if s = "" then .error (.missingField n.id n.kind field) else .ok s
  | none => .error (.missingField n.id n.kind field)

/-- A part that has to be there. -/
def needPart (n : Node) (field : String) (value : Option α) : Except ConversionError α :=
  match value with
  | some a => .ok a
  | none => .error (.missingField n.id n.kind field)

/-- The rule that a node is, without the rules below it. -/
def head (n : Node) : Except ConversionError Head :=
  match n.config with
  | .fieldCondition field comparison value => do
    let field ← n.needText "field" field
    let comparison ← n.needPart "operator" comparison
    let value ← n.needPart "value" value
    return .atom (.condition ⟨field, comparison, value, .literal⟩)
  | .fieldToField left comparison right => do
    let left ← n.needText "left" left
    let comparison ← n.needPart "operator" comparison
    let right ← n.needText "right" right
    return .atom (.condition ⟨left, comparison, .string right, .fieldReference⟩)
  | .group op => return .junction (.connective op)
  | .conditional requirement target => do
    return .scope (.conditional requirement (← n.needText "targetField" target))
  | .forEach array => do return .scope (.forEach (← n.needText "arrayField" array))
  | .uniqueBy array key => do
    let array ← n.needText "arrayField" array
    return .atom (.uniqueBy array (← n.needText "key" key))
  | .length bound array limit => do
    let array ← n.needText "arrayField" array
    return .atom (.length bound array (← n.needPart "length" limit))
  | .guarded guard field => do return .scope (.guarded guard (← n.needText "field" field))
  | .withDefault field value => do
    let field ← n.needText "field" field
    return .scope (.withDefault field (← n.needPart "default" value))
  | .call name args => do
    let name ← n.needText "name" name
    if isReservedCall name then .error (.reservedName name)
    else return .atom (.call name args)
  | .contextual source => do return .atom (.contextual (← n.needText "template" source))
  | .quota kind count => do return .junction (.quota kind (← n.needPart "count" count))
  | .expression source => do return .atom (.expression (← n.needText "expression" source))
  | .template id params => do return .atom (.template (← n.needText "templateId" id) params)
  | .custom name payload => do return .atom (.custom (← n.needText "name" name) payload)

/-- Every child has to be embedded. -/
def checkEmbedded (n : Node) : Except ConversionError Unit :=
  n.children.forM fun
    | .node _ => .ok ()
    | .ref id => .error (.unresolvedChild n.id id)

/-- A node of fixed arity has to have that many children. -/
def checkArity (n : Node) : Except ConversionError Unit :=
  match n.config.arity with
  | none => .ok ()
  | some expected =>
    if n.children.length = expected then .ok ()
    else .error (.childCount n.id n.kind expected n.children.length)

mutual

/-- The rule of a node tree, levels apart: first the node's children and parts are looked at, then
the trees below. -/
def convert : Node → Except ConversionError Rule
  | ⟨id, label, note, children, parent, config⟩ => do
    let n : Node := ⟨id, label, note, children, parent, config⟩
    n.checkEmbedded
    n.checkArity
    match ← n.head with
    | .atom a => return .atom a note
    | .junction j => return .junction j (← convertEntries children) note
    | .scope s =>
      match ← convertEntries children with
      | [body] => return .scope s body note
      | bodies => .error (.childCount id config.kind 1 bodies.length)

/-- The rules of embedded children. -/
def convertEntries : List Entry → Except ConversionError (List Rule)
  | [] => return []
  | .ref _ :: es => convertEntries es
  | .node n :: es => do
    let r ← convert n
    return r :: (← convertEntries es)

end

/-- The rule of a node tree. -/
def toRule (n : Node) : Except ConversionError Rule :=
  if nestingLimit < n.depth then .error (.tooDeep n.depth) else n.convert

end Node

/-! ### New ids -/

/-- A supply of ids: `@` and a running number of at least four digits, other than the ids that
are taken.

This stands for a source of random identifiers, of which two things are assumed: none is drawn
twice, and none is in use already.  Of the numbers here both are proved (`IdSupply.Draws`), and all
that is proved of drawn ids goes by these two; their form and their order are those of this supply
alone. -/
structure IdSupply where
  next : Nat
  taken : List String
  deriving Repr

namespace IdSupply

/-- The supply when no id is taken. -/
def fresh : IdSupply := ⟨1, []⟩

/-- The id of a number. -/
def idOf (n : Nat) : String :=
  let ds := Decimal.digitsOf n
  String.ofList ('@' :: (List.replicate (4 - ds.length) '0' ++ ds))

/-- The first number from `n` on whose id is not taken, among `fuel` and one more. -/
def firstFree (taken : List String) : (fuel : Nat) → (n : Nat) → Nat
  | 0, n => n
  | fuel + 1, n => if taken.contains (idOf n) then firstFree taken fuel (n + 1) else n

/-- The next id. -/
def draw (s : IdSupply) : String × IdSupply :=
  let n := firstFree s.taken s.taken.length s.next
  (idOf n, { s with next := n + 1 })

end IdSupply

/-! ### From rules to nodes -/

namespace Head

/-- A name that must not be empty. -/
def checkName (what : String) (name : String) : Except ConversionError Unit :=
  if name = "" then .error (.emptyName what) else .ok ()

/-- The first part of a rule that a node cannot hold. -/
def check : Head → Except ConversionError Unit
  | .atom (.condition c) => do
    match c.kind, c.value with
    | .literal, _ => .ok ()
    | .fieldReference, .string s =>
      if s = "" then .error (.invalidReference c.value) else .ok ()
    | .fieldReference, v => .error (.invalidReference v)
    checkName "field name" c.field
  | .atom (.uniqueBy array key) => do
    checkName "array field" array
    checkName "key" key
  | .atom (.length _ array _) => checkName "array field" array
  | .atom (.call name _) =>
    if isReservedCall name then .error (.reservedName name) else checkName "function name" name
  | .atom (.contextual source) => checkName "template" source
  | .atom (.expression source) => checkName "expression" source
  | .atom (.template id _) => checkName "template id" id
  | .atom (.custom name _) => checkName "custom kind" name
  | .scope (.conditional _ target) => checkName "target field" target
  | .scope (.forEach array) => checkName "array field" array
  | .scope (.guarded _ field) => checkName "field name" field
  | .scope (.withDefault field _) => checkName "field name" field
  | .junction _ => .ok ()

/-- The configuration of a rule's node. -/
def config : Head → Config
  | .atom (.condition c) =>
    match c.kind with
    | .literal => .fieldCondition (some c.field) (some c.comparison) (some c.value)
    | .fieldReference =>
      .fieldToField (some c.field) (some c.comparison) (some c.value.fieldName)
  | .atom (.uniqueBy array key) => .uniqueBy (some array) (some key)
  | .atom (.length bound array limit) => .length bound (some array) (some limit)
  | .atom (.call name args) => .call (some name) args
  | .atom (.contextual source) => .contextual (some source)
  | .atom (.expression source) => .expression (some source)
  | .atom (.template id params) => .template (some id) params
  | .atom (.custom name payload) => .custom (some name) payload
  | .scope (.conditional requirement target) => .conditional requirement (some target)
  | .scope (.forEach array) => .forEach (some array)
  | .scope (.guarded guard field) => .guarded guard (some field)
  | .scope (.withDefault field value) => .withDefault (some field) (some value)
  | .junction (.connective op) => .group op
  | .junction (.quota kind count) => .quota kind (some count)

end Head

namespace Rule

/-- The rule without the rules below it. -/
def head : Rule → Head
  | .atom a _ => .atom a
  | .scope s _ _ => .scope s
  | .junction j _ _ => .junction j

mutual

/-- The first part of a rule that nodes cannot hold, levels apart. -/
def checkNodes : Rule → Except ConversionError Unit
  | .atom a _ => (Head.atom a).check
  | .scope s body _ => do
    (Head.scope s).check
    checkNodes body
  | .junction j members _ => do
    (Head.junction j).check
    checkNodesAll members

/-- The first part of several rules that nodes cannot hold. -/
def checkNodesAll : List Rule → Except ConversionError Unit
  | [] => .ok ()
  | r :: rs => do
    checkNodes r
    checkNodesAll rs

end

mutual

/-- The node tree of a rule below a parent, with ids drawn in order of the nodes. -/
def drawNodes (parent : Option String) (ids : IdSupply) : Rule → Node × IdSupply
  | .atom a note =>
    let (id, ids) := ids.draw
    (⟨id, none, note, [], parent, (Head.atom a).config⟩, ids)
  | .scope s body note =>
    let (id, ids) := ids.draw
    let (child, ids) := drawNodes (some id) ids body
    (⟨id, none, note, [.node child], parent, (Head.scope s).config⟩, ids)
  | .junction j members note =>
    let (id, ids) := ids.draw
    let (children, ids) := drawEntries id ids members
    (⟨id, none, note, children, parent, (Head.junction j).config⟩, ids)

/-- The children for several rules. -/
def drawEntries (parent : String) (ids : IdSupply) : List Rule → List Entry × IdSupply
  | [] => ([], ids)
  | r :: rs =>
    let (child, ids) := drawNodes (some parent) ids r
    let (children, ids) := drawEntries parent ids rs
    (.node child :: children, ids)

end

/-- Whether nodes can hold a rule. -/
def checkDrawable (r : Rule) : Except ConversionError Unit :=
  if nestingLimit < r.depth then .error (.tooDeep r.depth) else r.checkNodes

/-- The node tree of a rule, and the supply of ids that is left. -/
def toNodeWith (r : Rule) (ids : IdSupply) : Except ConversionError (Node × IdSupply) := do
  r.checkDrawable
  return r.drawNodes none ids

/-- The node tree of a rule, its ids numbered in order of the nodes. -/
def toNode (r : Rule) : Except ConversionError Node := (r.toNodeWith .fresh).map Prod.fst

end Rule

end Rulebook
