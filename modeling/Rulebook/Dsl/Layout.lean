import Rulebook.Json.Record

/-!
# Rulebook — Dsl — Layout

How the text of a rule is laid out.

The width of an indentation is a natural number here and a machine word where texts are really laid
out.  Read from JSON it is below `2 ^ 64` in any case (`Layout.ofJson?`), and the product of a width
and a level leaves that range only for a line that no memory holds, so that the two differ on no
text that can be written.
-/

namespace Rulebook

/-- Where the comments with the diagnostic records go. -/
inductive RecordPlace where
  /-- On lines of their own in front of the rule. -/
  | before
  /-- On lines of their own behind the rule. -/
  | after
  /-- Each right behind the rule it is about. -/
  | inline
  deriving DecidableEq, Repr

namespace RecordPlace

/-- The name in JSON. -/
def name : RecordPlace → String
  | .before => "before"
  | .after => "after"
  | .inline => "inline"

def toJson (p : RecordPlace) : Json := .string p.name

def ofJson? : Json.Decoder RecordPlace :=
  Json.asNamed ([before, after, inline].map fun p => (p.name, p))

end RecordPlace

/-- The choices in the layout of a rule's text. -/
structure Layout where
  /-- Groups of two and more members take a line for each member. -/
  pretty : Bool
  /-- The number of spaces for each level of a group, without a bound of its own. -/
  indentWidth : Nat
  /-- Diagnostic records are written at all. -/
  withRecords : Bool
  place : RecordPlace
  deriving DecidableEq, Repr

namespace Layout

/-- On one line, with the records in front. -/
def standard : Layout := ⟨false, 2, true, .before⟩

def toJson (o : Layout) : Json :=
  .object [("pretty", .bool o.pretty), ("indentWidth", .nat o.indentWidth),
    ("includeMetadata", .bool o.withRecords), ("commentPosition", o.place.toJson)]

/-- The names of the members. -/
def memberNames : List String := ["pretty", "indentWidth", "includeMetadata", "commentPosition"]

/-- Reads a layout; what is missing is as in the standard one. -/
def ofJson? : Json.Decoder Layout := fun s j => do
  let r ← Json.Record.read memberNames s j
  some ⟨← r.withDefault "pretty" standard.pretty Json.asBool,
    ← r.withDefault "indentWidth" standard.indentWidth Json.asNat,
    ← r.withDefault "includeMetadata" standard.withRecords Json.asBool,
    ← r.withDefault "commentPosition" standard.place RecordPlace.ofJson?⟩

end Layout

end Rulebook
