import Rulebook.Diagnostic
import Rulebook.Dsl.Layout
import Rulebook.Node.Basic

/-!
# Rulebook — RoundTrip — Report

What a round trip of a node tree is asked to do, and what it has to report.
-/

namespace Rulebook.RoundTrip

/-- How texts are laid out on the way, and what is compared at the end. -/
structure Settings where
  layout : Layout
  checkRecords : Bool
  checkConfigs : Bool
  deriving DecidableEq, Repr

namespace Settings

/-- The standard layout, and everything compared. -/
def standard : Settings := ⟨.standard, true, true⟩

def toJson (s : Settings) : Json :=
  .object [("export", s.layout.toJson), ("checkMetadata", .bool s.checkRecords),
    ("checkLogic", .bool s.checkConfigs)]

/-- Reads settings; what is missing is as in the standard ones. -/
def ofJson? : Json.Decoder Settings := fun s j => do
  let r ← Json.Record.read ["export", "checkMetadata", "checkLogic"] s j
  some ⟨← r.withDefault "export" standard.layout Layout.ofJson?,
    ← r.withDefault "checkMetadata" standard.checkRecords Json.asBool,
    ← r.withDefault "checkLogic" standard.checkConfigs Json.asBool⟩

end Settings

/-- The four conversions of a round trip. -/
inductive Stage where
  | nodesToRule
  | ruleToText
  | textToRule
  | ruleToNodes
  deriving DecidableEq, Repr

namespace Stage

/-- Every stage, in order. -/
def all : List Stage := [.nodesToRule, .ruleToText, .textToRule, .ruleToNodes]

/-- The name in messages. -/
def name : Stage → String
  | .nodesToRule => "visual-to-spec"
  | .ruleToText => "spec-to-dsl"
  | .textToRule => "dsl-to-spec"
  | .ruleToNodes => "spec-to-visual"

/-- The code of a failure in the stage. -/
def code : Stage → DiagnosticCode
  | .nodesToRule => .bridgeError
  | .ruleToText => .codecError
  | .textToRule => .parseError
  | .ruleToNodes => .bridgeError

/-- The place among the stages. -/
def index : Stage → Nat
  | .nodesToRule => 0
  | .ruleToText => 1
  | .textToRule => 2
  | .ruleToNodes => 3

end Stage

/-- How a stage went. -/
inductive StageResult where
  /-- It has not run. -/
  | pending
  | passed
  | failed (message : String)
  /-- A stage before it failed. -/
  | skipped
  deriving DecidableEq, Repr

namespace StageResult

/-- The word in reports. -/
def word : StageResult → String
  | .passed => "ok"
  | .pending | .failed _ => "failed"
  | .skipped => "skipped"

end StageResult

/-- Why a stage failed, and where, if that is a place in a text. -/
structure StageError where
  message : String
  location : Option Location

/-- A report: how each stage went, what the stages that passed produced, and what was found. -/
structure Report where
  stages : Stage → StageResult
  rule : Option Rule
  text : Option String
  reparsed : Option Rule
  rebuilt : Option Node
  errors : List Diagnostic
  warnings : List Diagnostic

namespace Report

/-- Every stage passed, and there are no errors.  Warnings do not count. -/
def success (r : Report) : Bool :=
  r.errors.isEmpty && Stage.all.all fun s => r.stages s = .passed

/-- The report in one line. -/
def summary (r : Report) : String :=
  "round trip " ++ (if r.success then "passed" else "failed") ++
    String.join (Stage.all.map fun s => ", " ++ s.name ++ ": " ++ (r.stages s).word) ++
    s!", errors: {r.errors.length}, warnings: {r.warnings.length}"

/-- The stages when all of them passed. -/
def allPassed : Stage → StageResult := fun _ => .passed

/-- The report before the first stage. -/
def blank : Report := ⟨fun _ => .pending, none, none, none, none, [], []⟩

/-- Records that a stage passed. -/
def pass (r : Report) (stage : Stage) : Report :=
  { r with stages := fun s => if s = stage then .passed else r.stages s }

/-- Records that a stage failed: the error is about a node, and the stages behind it are marked as
skipped. -/
def fail (r : Report) (stage : Stage) (node : String) (e : StageError) : Report :=
  { r with
    stages := fun s =>
      if stage.index < s.index then .skipped
      else if s = stage then .failed e.message
      else r.stages s
    errors := r.errors ++
      [⟨stage.name ++ " failed: " ++ e.message, .error, stage.code, some node, e.location⟩] }

/-- Records how a stage went, and goes on with what it produced. -/
def through (r : Report) (stage : Stage) (node : String) (outcome : Except StageError α)
    (next : α → Report → Report) : Report :=
  match outcome with
  | .error e => r.fail stage node e
  | .ok a => next a (r.pass stage)

end Report

end Rulebook.RoundTrip
