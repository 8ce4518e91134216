import Rulebook.Dsl.Reader
import Rulebook.Editor.Basic
import Rulebook.Editor.Document
import Rulebook.Node.Convert
import Rulebook.Rule.Codec
import Rulebook.Text.Blank

/-!
# Rulebook — Editor — Transfer

Rules into a document and out of it.  A JSON text holds one rule or an array of rules, a rule text
at most one rule.  A document is written root by root: as one JSON array, or as texts with an empty
line between them.
-/

namespace Rulebook

/-- Why nothing can be imported. -/
inductive ImportError where
  | malformedJson
  /-- A value that is meant for a rule has no member `type`. -/
  | missingType
  | parse (e : ParseError)
  | conversion (e : ConversionError)

namespace ImportError

/-- The wording. -/
def message : ImportError → String
  | .malformedJson => "malformed JSON"
  | .missingType => "JSON payload has no \"type\" discriminator"
  | .parse e => e.text
  | .conversion e => e.message

end ImportError

/-- Why a document cannot be written. -/
inductive ExportError where
  | structural (e : StructureError)
  | conversion (e : ConversionError)
  | render (e : RenderError)

namespace ExportError

/-- The wording. -/
def message : ExportError → String
  | .structural e => e.message
  | .conversion e => e.message
  | .render e => e.message

end ExportError

namespace Transfer

/-! ### In -/

/-- The rule that a JSON value stands for. -/
def ruleOfJson (j : Json) : Except ImportError Rule :=
  match j.get? "type" with
  | none => .error .missingType
  | some _ =>
    match Rule.ofJson? .inPlace j with
    | none => .error .malformedJson
    | some r => .ok r

/-- The rules that a JSON value stands for. -/
def rulesOfValue : Json → Except ImportError (List Rule)
  | .null => .ok []
  | .array items => items.mapM ruleOfJson
  | .object [] => .ok []
  | j => do return [← ruleOfJson j]

/-- The rules of a JSON text, which may be blank. -/
def rulesOfJson (content : String) : Except ImportError (List Rule) :=
  match Text.trim content.toList with
  | [] => .ok []
  | text =>
    match Json.read? text with
    | none => .error .malformedJson
    | some j => rulesOfValue j.canonicalize

/-- The rule of a rule text, if it holds one. -/
def rulesOfDsl (content : String) : Except ImportError (List Rule) :=
  match Dsl.parse content with
  | .error e => .error (.parse e)
  | .ok r => .ok r.toList

/-- The rules of a text. -/
def rulesOf : Format → String → Except ImportError (List Rule)
  | .json => rulesOfJson
  | .dsl => rulesOfDsl

/-- Node trees for rules, and the supply of ids that is left. -/
def treesOf (ids : IdSupply) : List Rule → Except ConversionError (List Node × IdSupply)
  | [] => .ok ([], ids)
  | r :: rs => do
    let (tree, ids) ← r.toNodeWith ids
    let (trees, ids) ← treesOf ids rs
    return (tree :: trees, ids)

/-- The node tree of a rule text, if it holds a rule. -/
def treeOf (content : String) : Except ImportError (Option Node) :=
  match Dsl.parse content with
  | .error e => .error (.parse e)
  | .ok none => .ok none
  | .ok (some r) =>
    match r.toNode with
    | .error e => .error (.conversion e)
    | .ok n => .ok (some n)

/-! ### Out -/

/-- The rule below a root. -/
def ruleBelow (nodes : Forest) (root : String) : Except ExportError Rule :=
  match nodes.build root with
  | .error e => .error (.structural e)
  | .ok tree =>
    match tree.toRule with
    | .error e => .error (.conversion e)
    | .ok r => .ok r

/-- The rules of a document, root by root. -/
def rulesIn (d : Document) : Except ExportError (List Rule) := d.roots.mapM (ruleBelow d.nodes)

/-- The text of a rule. -/
def textOf (layout : Layout) (r : Rule) : Except ExportError String :=
  match Dsl.print r layout with
  | .error e => .error (.render e)
  | .ok text => .ok text

/-- Texts with an empty line between them. -/
def paragraphs (texts : List String) : String := String.intercalate "\n\n" texts

/-- The text of a document. -/
def write (d : Document) (layout : Layout) : Format → Except ExportError String
  | .json => do return (Json.array ((← rulesIn d).map Rule.toJson)).spreadText
  | .dsl => do return paragraphs (← (← rulesIn d).mapM (textOf layout))

end Transfer

end Rulebook
