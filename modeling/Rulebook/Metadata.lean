import Rulebook.Json.Record

/-!
# Rulebook — Metadata

The diagnostic record that an author attaches to a rule: a code, a message and a severity, each of
which may be left out.  It goes with its rule through every form.
-/

namespace Rulebook

/-- How serious a finding is. -/
inductive Severity where
  | error
  | warning
  | info
  deriving DecidableEq, Repr

namespace Severity

/-- The name, in messages and in JSON. -/
def name : Severity → String
  | .error => "error"
  | .warning => "warning"
  | .info => "info"

def toJson (s : Severity) : Json := .string s.name

def ofJson? : Json.Decoder Severity :=
  Json.asNamed ([error, warning, info].map fun s => (s.name, s))

end Severity

/-- A rule's diagnostic record. -/
structure Metadata where
  code : Option String
  message : Option String
  severity : Option Severity
  deriving DecidableEq, Repr

namespace Metadata

/-- The members of the JSON object; what is absent is left out. -/
def members (m : Metadata) : List (String × Json) :=
  (m.code.map fun s => ("code", Json.string s)).toList ++
    (m.message.map fun s => ("message", Json.string s)).toList ++
    (m.severity.map fun s => ("severity", s.toJson)).toList

def toJson (m : Metadata) : Json := .object m.members

/-- The names of the members. -/
def memberNames : List String := ["code", "message", "severity"]

/-- Reads the members of a record that may have others too. -/
def ofRecord? (r : Json.Record) : Option Metadata := do
  some ⟨← r.optional "code" Json.asString, ← r.optional "message" Json.asString,
    ← r.optional "severity" Severity.ofJson?⟩

def ofJson? : Json.Decoder Metadata := fun s j => (Json.Record.read memberNames s j).bind ofRecord?

end Metadata

end Rulebook
