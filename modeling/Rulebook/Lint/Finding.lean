import Rulebook.Diagnostic

/-!
# Rulebook — Lint — Finding

What the linter looks for, what it finds, and the edits that mend it.
-/

namespace Rulebook.Lint

/-- The families of checks. -/
inductive Category where
  /-- The text as the grammar sees it. -/
  | grammar
  | style
  | semantic
  deriving DecidableEq, Repr

namespace Category

/-- The name, in messages and in JSON. -/
def name : Category → String
  | .grammar => "syntax"
  | .style => "style"
  | .semantic => "semantic"

def toJson (c : Category) : Json := .string c.name

def ofJson? : Json.Decoder Category :=
  Json.asNamed ([grammar, style, semantic].map fun c => (c.name, c))

end Category

/-- What the linter looks for. -/
inductive Check where
  | parsing
  | unbalancedParens
  | lowercaseKeyword
  | trailingWhitespace
  | doubleNegation
  | emptyGroup
  | singleChildGroup
  | duplicateCondition
  | lineTooLong
  | unknownField
  | operatorNotAllowed
  deriving DecidableEq, Repr

namespace Check

/-- Every check. -/
def all : List Check :=
  [.parsing, .unbalancedParens, .lowercaseKeyword, .trailingWhitespace, .doubleNegation,
   .emptyGroup, .singleChildGroup, .duplicateCondition, .lineTooLong, .unknownField,
   .operatorNotAllowed]

/-- The name, in messages and in JSON. -/
def name : Check → String
  | .parsing => "syntax-error"
  | .unbalancedParens => "unbalanced-parens"
  | .lowercaseKeyword => "lowercase-keyword"
  | .trailingWhitespace => "trailing-whitespace"
  | .doubleNegation => "double-negation"
  | .emptyGroup => "empty-group"
  | .singleChildGroup => "single-child-group"
  | .duplicateCondition => "duplicate-condition"
  | .lineTooLong => "line-too-long"
  | .unknownField => "unknown-field"
  | .operatorNotAllowed => "operator-not-allowed"

/-- The family of a check. -/
def category : Check → Category
  | .parsing | .unbalancedParens => .grammar
  | .lowercaseKeyword | .trailingWhitespace | .doubleNegation | .lineTooLong => .style
  | .emptyGroup | .singleChildGroup | .duplicateCondition | .unknownField
  | .operatorNotAllowed => .semantic

/-- How serious a finding of a check is. -/
def severity : Check → Severity
  | .parsing | .unbalancedParens | .operatorNotAllowed => .error
  | .lowercaseKeyword | .doubleNegation | .emptyGroup | .duplicateCondition
  | .unknownField => .warning
  | .trailingWhitespace | .singleChildGroup | .lineTooLong => .info

def toJson (c : Check) : Json := .string c.name

def ofJson? : Json.Decoder Check := Json.asNamed (all.map fun c => (c.name, c))

end Check

/-- The replacement of what stands between two byte offsets. -/
structure Edit where
  start : Nat
  stop : Nat
  replacement : String
  deriving DecidableEq, Repr

namespace Edit

def toJson (e : Edit) : Json :=
  .object [("start", .nat e.start), ("end", .nat e.stop), ("replacement", .string e.replacement)]

def ofJson? : Json.Decoder Edit := fun s j => do
  let r ← Json.Record.read ["start", "end", "replacement"] s j
  some ⟨← r.required "start" Json.asNat, ← r.required "end" Json.asNat,
    ← r.required "replacement" Json.asString⟩

end Edit

/-- An edit that mends a finding. -/
structure Fix where
  description : String
  edit : Edit
  deriving DecidableEq, Repr

namespace Fix

def toJson (f : Fix) : Json :=
  .object [("description", .string f.description), ("edit", f.edit.toJson)]

def ofJson? : Json.Decoder Fix := fun s j => do
  let r ← Json.Record.read ["description", "edit"] s j
  some ⟨← r.required "description" Json.asString, ← r.required "edit" Edit.ofJson?⟩

end Fix

/-- A finding of the linter. -/
structure Finding where
  check : Check
  category : Category
  severity : Severity
  message : String
  location : Location
  fix : Option Fix
  deriving DecidableEq, Repr

namespace Finding

/-- A finding of a check, with the category and severity of the check. -/
def of (check : Check) (location : Location) (message : String) (fix : Option Fix) : Finding :=
  ⟨check, check.category, check.severity, message, location, fix⟩

/-- Whether it is an error. -/
def isError (f : Finding) : Bool := f.severity = .error

/-- The wording with place and fix. -/
def text (f : Finding) : String :=
  s!"{f.location.line}:{f.location.column} [{f.check.name}] {f.severity.name}: " ++ f.message ++
    match f.fix with
    | some fix => " (fix: " ++ fix.description ++ ")"
    | none => ""

def toJson (f : Finding) : Json :=
  .object ([("rule", f.check.toJson), ("category", f.category.toJson),
    ("severity", f.severity.toJson), ("message", .string f.message),
    ("location", f.location.toJson)] ++ (f.fix.map fun fix => ("fix", fix.toJson)).toList)

/-- The names of the members. -/
def memberNames : List String :=
  ["rule", "category", "severity", "message", "location", "fix"]

def ofJson? : Json.Decoder Finding := fun s j => do
  let r ← Json.Record.read memberNames s j
  some {
    check := ← r.required "rule" Check.ofJson?
    category := ← r.required "category" Category.ofJson?
    severity := ← r.required "severity" Severity.ofJson?
    message := ← r.required "message" Json.asString
    location := ← r.required "location" Location.ofJson?
    fix := ← r.optional "fix" Fix.ofJson? }

end Finding

/-- The choices in linting. -/
structure Settings where
  /-- The most characters a line may have. -/
  maxLineLength : Nat
  disabled : List Check
  deriving DecidableEq, Repr

namespace Settings

/-- Lines of 120 characters, and every check. -/
def standard : Settings := ⟨120, []⟩

/-- Whether the findings of a check are wanted. -/
def isEnabled (s : Settings) (c : Check) : Bool := !s.disabled.contains c

def toJson (s : Settings) : Json :=
  .object [("maxLineLength", .nat s.maxLineLength),
    ("disabled", .array (s.disabled.map Check.toJson))]

/-- Reads settings; what is missing is as in the standard ones. -/
def ofJson? : Json.Decoder Settings := fun s j => do
  let r ← Json.Record.read ["maxLineLength", "disabled"] s j
  some ⟨← r.withDefault "maxLineLength" standard.maxLineLength Json.asNat,
    ← r.withDefault "disabled" standard.disabled (Json.asList Check.ofJson?)⟩

end Settings

end Rulebook.Lint
