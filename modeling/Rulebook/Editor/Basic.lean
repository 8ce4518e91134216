import Rulebook.RoundTrip.Report

/-!
# Rulebook — Editor — Basic

What an editor shows, what becomes of its contents over time, what it tells those who listen, and
the choices in its behaviour.
-/

namespace Rulebook

/-- The representation that is shown. -/
inductive View where
  | nodes
  | text
  | json
  deriving DecidableEq, Repr

namespace View

/-- The name in JSON. -/
def name : View → String
  | .nodes => "visual"
  | .text => "dsl"
  | .json => "json"

def ofJson? : Json.Decoder View := Json.asNamed ([nodes, text, json].map fun v => (v.name, v))

end View

/-- What has become of the contents. -/
inductive Phase where
  /-- There are none. -/
  | empty
  /-- They were just created or loaded. -/
  | populated
  /-- They were changed and not validated since. -/
  | dirty
  | validated
  /-- They were saved. -/
  | clean
  deriving DecidableEq, Repr

/-- The name of a phase. -/
def Phase.name : Phase → String
  | .empty => "empty"
  | .populated => "populated"
  | .dirty => "dirty"
  | .validated => "validated"
  | .clean => "clean"

/-- What subscribers are told. -/
inductive Event where
  | stateChanged
  | phaseChanged (before after : Phase)
  /-- The numbers of errors, and of other diagnostics. -/
  | validationCompleted (errors warnings : Nat)
  deriving DecidableEq, Repr

/-- The forms in which rules are imported and exported. -/
inductive Format where
  | json
  | dsl
  deriving DecidableEq, Repr

namespace Format

/-- The name in JSON. -/
def name : Format → String
  | .json => "json"
  | .dsl => "dsl"

def toJson (f : Format) : Json := .string f.name

def ofJson? : Json.Decoder Format := Json.asNamed ([json, dsl].map fun f => (f.name, f))

end Format

/-- How rules are imported. -/
structure ImportOptions where
  format : Format
  /-- The rules become roots behind those that are there, and do not replace them. -/
  merge : Bool
  deriving DecidableEq, Repr

namespace ImportOptions

def toJson (o : ImportOptions) : Json :=
  .object [("format", o.format.toJson), ("merge", .bool o.merge)]

def ofJson? : Json.Decoder ImportOptions := fun s j => do
  let r ← Json.Record.read ["format", "merge"] s j
  some ⟨← r.required "format" Format.ofJson?, ← r.withDefault "merge" false Json.asBool⟩

end ImportOptions

namespace Editor

/-- The choices in an editor's behaviour. -/
structure Settings where
  /-- Every change is followed by a validation. -/
  autoValidate : Bool
  /-- A validation includes a round trip of every root. -/
  roundTripValidation : Bool
  /-- The most states that are kept for undoing and redoing. -/
  maxHistory : Nat
  roundTrip : RoundTrip.Settings
  deriving DecidableEq, Repr

namespace Settings

/-- Everything validated, and fifty states kept. -/
def standard : Settings := ⟨true, true, 50, .standard⟩

def toJson (s : Settings) : Json :=
  .object [("autoValidate", .bool s.autoValidate),
    ("roundTripValidation", .bool s.roundTripValidation), ("maxHistory", .nat s.maxHistory),
    ("roundTrip", s.roundTrip.toJson)]

/-- The names of the members. -/
def memberNames : List String :=
  ["autoValidate", "roundTripValidation", "maxHistory", "roundTrip"]

/-- Reads settings; what is missing is as in the standard ones. -/
def ofJson? : Json.Decoder Settings := fun s j => do
  let r ← Json.Record.read memberNames s j
  some ⟨← r.withDefault "autoValidate" standard.autoValidate Json.asBool,
    ← r.withDefault "roundTripValidation" standard.roundTripValidation Json.asBool,
    ← r.withDefault "maxHistory" standard.maxHistory Json.asNat,
    ← r.withDefault "roundTrip" standard.roundTrip RoundTrip.Settings.ofJson?⟩

end Settings

end Editor

end Rulebook
