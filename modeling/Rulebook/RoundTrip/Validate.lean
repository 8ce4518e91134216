import Rulebook.Dsl.Reader
import Rulebook.Node.Codec
import Rulebook.Node.Convert
import Rulebook.RoundTrip.Report

/-!
# Rulebook — RoundTrip — Validate

The round trip of a node tree: to a rule, to text, back to a rule and back to nodes.  How each stage
went is recorded as it runs.  A stage that fails is an error of the report, and no later stage runs.
When all stages pass, the rebuilt tree is compared with the one it came from, and every difference
is a warning.
-/

namespace Rulebook.RoundTrip

/-! ### Comparison -/

/-- The warning for another number of nodes. -/
def countWarnings (source rebuilt : Node) : List Diagnostic :=
  if source.count = rebuilt.count then []
  else
    [.warning .roundTripNodeCount
      s!"node count changed from {source.count} to {rebuilt.count}" (some source.id)]

/-- Whether two nodes differ in kind or in the number of children. -/
def shapeDiffers (a b : Node) : Bool :=
  a.kind != b.kind || a.children.length != b.children.length

/-- The warning for another shape. -/
def shapeWarning (a b : Node) : Diagnostic :=
  .warning .roundTripStructure
    (s!"structure changed: {a.kind.name} with {a.children.length} children became " ++
      s!"{b.kind.name} with {b.children.length} children") (some a.id)

/-- The warnings about the nodes themselves. -/
def partWarnings (s : Settings) (a b : Node) : List Diagnostic :=
  (if s.checkRecords && a.note != b.note then
    [.warning .roundTripMetadata "metadata was not preserved" (some a.id)]
  else []) ++
  (if s.checkConfigs && !a.config.toJson.agrees b.config.toJson then
    [.warning .roundTripLogic (a.kind.name ++ " configuration changed") (some a.id)]
  else [])

mutual

/-- The differences of two trees, walked in step.  Below nodes of different shape nothing is
compared. -/
def differences (s : Settings) : Node → Node → List Diagnostic
  | ⟨id, label, note, children, parent, config⟩, b =>
    let a : Node := ⟨id, label, note, children, parent, config⟩
    if shapeDiffers a b then [shapeWarning a b]
    else partWarnings s a b ++ differencesBelow s children b.embedded

/-- The differences of embedded children, pair by pair. -/
def differencesBelow (s : Settings) : List Entry → List Node → List Diagnostic
  | [], _ => []
  | .ref _ :: es, bs => differencesBelow s es bs
  | .node _ :: _, [] => []
  | .node a :: es, b :: bs => differences s a b ++ differencesBelow s es bs

end

/-! ### Stages -/

/-- Reads a text that has to hold a rule. -/
def readRule (text : String) : Except ParseError Rule :=
  match Dsl.parse text with
  | .error e => .error e
  | .ok none => .error ⟨.nothing, .start⟩
  | .ok (some r) => .ok r

/-- A failure that has no place in a text. -/
def placeless (message : ε → String) (e : ε) : StageError := ⟨message e, none⟩

/-- A failure to read a text. -/
def placed (e : ParseError) : StageError := ⟨e.text, some e.location⟩

/-- Runs the stages on a node tree, each with what the one before produced. -/
def runStages (s : Settings) (node : Node) : Report :=
  Report.blank.through .nodesToRule node.id
    (node.toRule.mapError (placeless ConversionError.message)) fun rule r =>
  Report.through { r with rule := some rule } .ruleToText node.id
    ((Dsl.print rule s.layout).mapError (placeless RenderError.message)) fun text r =>
  Report.through { r with text := some text } .textToRule node.id
    ((readRule text).mapError placed) fun reparsed r =>
  Report.through { r with reparsed := some reparsed } .ruleToNodes node.id
    (reparsed.toNode.mapError (placeless ConversionError.message)) fun rebuilt r =>
  { r with rebuilt := some rebuilt }

/-- The round trip of a node tree. -/
def validate (s : Settings) (node : Node) : Report :=
  let r := runStages s node
  if Stage.all.all fun stage => r.stages stage = .passed then
    match r.rebuilt with
    | none => r
    | some rebuilt =>
      { r with warnings := countWarnings node rebuilt ++ differences s node rebuilt }
  else r

end Rulebook.RoundTrip
