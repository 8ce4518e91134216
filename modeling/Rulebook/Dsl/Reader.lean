import Rulebook.Dsl.Comment
import Rulebook.Dsl.Expression

/-!
# Rulebook — Dsl — Reader

Reading a text into a rule: the grammar first, then the record comments, each of which sets the
diagnostic record of the rule at its path.
-/

namespace Rulebook

/-- Why a text is no rule. -/
inductive ParseFault where
  /-- The grammar failed, before the given character or at the end of the text. -/
  | syntaxError (fault : Dsl.Fault) (found : Option Char)
  /-- A record comment does not hold a record. -/
  | malformedRecord
  /-- A record comment's path leads nowhere. -/
  | unknownPath (path : List Nat)
  /-- There is no rule where one is needed. -/
  | nothing
  deriving DecidableEq, Repr

/-- Why and where a text is no rule. -/
structure ParseError where
  fault : ParseFault
  location : Location
  deriving DecidableEq, Repr

/-- A path in brackets. -/
def showPath (path : List Nat) : String :=
  "[" ++ String.intercalate ", " (path.map fun i => String.ofList (Decimal.digitsOf i)) ++ "]"

namespace ParseFault

/-- The wording. -/
def message : ParseFault → String
  | .syntaxError fault found =>
    match fault.text, found with
    | "", some c => "unexpected '" ++ String.ofList [c] ++ "'"
    | "", none => "unexpected end of input"
    | text, _ => text
  | .malformedRecord => "malformed metadata comment"
  | .unknownPath path => "metadata comment path " ++ showPath path ++ " does not address a node"
  | .nothing => "dsl output is empty"

end ParseFault

namespace ParseError

/-- The wording, without the place. -/
def message (e : ParseError) : String := e.fault.message

/-- The wording with the place in front. -/
def text (e : ParseError) : String :=
  "parse error at " ++ e.location.text ++ ": " ++ e.message

end ParseError

namespace Dsl

/-- The byte offset of the end `rest` of a text. -/
def offsetOf (text rest : List Char) : Nat := Text.width text - Text.width rest

/-- Reads the grammar, comments apart, over the whole text. -/
def readStructure (text : List Char) : Except ParseError (Option Rule) :=
  let stopped := fun (fault : Fault) (rest : List Char) =>
    Except.error ⟨.syntaxError fault rest.head?, Text.locate text (offsetOf text rest)⟩
  match document text with
  | .fail fault rest => stopped fault rest
  | .ok r [] => .ok r
  | .ok _ rest => stopped .bare rest

/-- Sets the diagnostic record that a comment holds, if it holds one. -/
def applyComment (text : List Char) (r : Rule) (c : Comment) : Except ParseError Rule :=
  match c.record? with
  | none => .ok r
  | some body =>
    match PathRecord.read? body with
    | none => .error ⟨.malformedRecord, Text.locate text c.offset⟩
    | some record =>
      match r.annotate (some record.metadata) record.path with
      | none => .error ⟨.unknownPath record.path, Text.locate text c.offset⟩
      | some r => .ok r

/-- Reads a text: a rule, or nothing if there are only blanks and comments. -/
def read (text : List Char) : Except ParseError (Option Rule) := do
  match ← readStructure text with
  | none => return none
  | some r => return some (← (comments text).foldlM (applyComment text) r)

/-- Reads a string: a rule, or nothing if there are only blanks and comments. -/
def parse (text : String) : Except ParseError (Option Rule) := read text.toList

end Dsl

end Rulebook
