import Rulebook.Metadata
import Rulebook.Text.Position

/-!
# Rulebook — Diagnostic

What checks of nodes, of structure, of writing and of round trips have to say.
-/

namespace Rulebook

/-- The kind of a diagnostic. -/
inductive DiagnosticCode where
  | parseError
  | codecError
  | bridgeError
  | structuralError
  | invalidNode
  | emptyGroup
  | generationFailed
  | roundTripNodeCount
  | roundTripStructure
  | roundTripMetadata
  | roundTripLogic
  deriving DecidableEq, Repr

namespace DiagnosticCode

/-- Every code. -/
def all : List DiagnosticCode :=
  [.parseError, .codecError, .bridgeError, .structuralError, .invalidNode, .emptyGroup,
   .generationFailed, .roundTripNodeCount, .roundTripStructure, .roundTripMetadata,
   .roundTripLogic]

/-- The name, in messages and in JSON. -/
def name : DiagnosticCode → String
  | .parseError => "PARSE_ERROR"
  | .codecError => "CODEC_ERROR"
  | .bridgeError => "BRIDGE_ERROR"
  | .structuralError => "STRUCTURAL_ERROR"
  | .invalidNode => "INVALID_NODE"
  | .emptyGroup => "EMPTY_GROUP"
  | .generationFailed => "GENERATION_FAILED"
  | .roundTripNodeCount => "ROUND_TRIP_NODE_COUNT"
  | .roundTripStructure => "ROUND_TRIP_STRUCTURE"
  | .roundTripMetadata => "ROUND_TRIP_METADATA"
  | .roundTripLogic => "ROUND_TRIP_LOGIC"

def toJson (c : DiagnosticCode) : Json := .string c.name

def ofJson? : Json.Decoder DiagnosticCode := Json.asNamed (all.map fun c => (c.name, c))

end DiagnosticCode

namespace Location

def toJson (l : Location) : Json := .object [("line", .nat l.line), ("column", .nat l.column)]

def ofJson? : Json.Decoder Location := fun s j => do
  let r ← Json.Record.read ["line", "column"] s j
  some ⟨← r.required "line" Json.asNat, ← r.required "column" Json.asNat⟩

end Location

/-- A finding about a node or a text. -/
structure Diagnostic where
  message : String
  severity : Severity
  code : DiagnosticCode
  node : Option String
  location : Option Location
  deriving DecidableEq, Repr

namespace Diagnostic

/-- An error about a node. -/
def error (code : DiagnosticCode) (message : String) (node : Option String) : Diagnostic :=
  ⟨message, .error, code, node, none⟩

/-- A warning about a node. -/
def warning (code : DiagnosticCode) (message : String) (node : Option String) : Diagnostic :=
  ⟨message, .warning, code, node, none⟩

/-- Whether it is an error. -/
def isError (d : Diagnostic) : Bool := d.severity = .error

/-- The wording with everything that is known. -/
def text (d : Diagnostic) : String :=
  "[" ++ d.severity.name ++ "] " ++ d.code.name ++ ": " ++ d.message ++
    (match d.node with
    | some node => " (node " ++ node ++ ")"
    | none => "") ++
    (match d.location with
    | some l => " at " ++ l.text
    | none => "")

/-- The members of the JSON object. -/
def members (d : Diagnostic) : List (String × Json) :=
  [("message", .string d.message), ("severity", d.severity.toJson), ("code", d.code.toJson)] ++
    (d.node.map fun node => ("nodeId", Json.string node)).toList ++
    (d.location.map fun l => ("location", l.toJson)).toList

def toJson (d : Diagnostic) : Json := .object d.members

end Diagnostic

/-- A diagnostic under an id of its own. -/
structure FiledDiagnostic where
  id : String
  diagnostic : Diagnostic
  deriving DecidableEq, Repr

namespace FiledDiagnostic

def toJson (d : FiledDiagnostic) : Json := .object (("id", .string d.id) :: d.diagnostic.members)

/-- The names of the members. -/
def memberNames : List String := ["id", "message", "severity", "code", "nodeId", "location"]

def ofJson? : Json.Decoder FiledDiagnostic := fun s j => do
  let r ← Json.Record.read memberNames s j
  some {
    id := ← r.required "id" Json.asString
    diagnostic := {
      message := ← r.required "message" Json.asString
      severity := ← r.required "severity" Severity.ofJson?
      code := ← r.required "code" DiagnosticCode.ofJson?
      node := ← r.optional "nodeId" Json.asString
      location := ← r.optional "location" Location.ofJson? } }

end FiledDiagnostic

end Rulebook
