import Rulebook.Editor.Transfer
import Rulebook.RoundTrip.Validate

/-!
# Rulebook — Editor — Diagnosis

The validation of a document: every node by itself, the links between nodes, and root by root the
text of its rule and the round trip of its tree.
-/

namespace Rulebook.Editor

/-! ### Nodes -/

/-- The errors about what a node lacks. -/
def missingProblems (id : String) (c : Config) : List Diagnostic :=
  c.missing.map fun part =>
    .error .invalidNode (c.kind.name ++ " is missing '" ++ part ++ "'") (some id)

/-- The finding about the number of a node's children: an error for one that has to have another
number of them, a warning for an empty group. -/
def arityProblems (id : String) (c : Config) (children : Nat) : List Diagnostic :=
  match c, c.arity with
  | .group _, none =>
    if children = 0 then
      [.warning .emptyGroup (c.kind.name ++ " has no children") (some id)]
    else []
  | _, none => []
  | _, some expected =>
    if expected = children then []
    else
      [.error .invalidNode
        s!"{c.kind.name} needs {expected} children, has {children}" (some id)]

/-- The error about a function that has a name with a meaning of its own. -/
def nameProblems (id : String) : Config → List Diagnostic
  | .call (some name) _ =>
    if isReservedCall name then
      [.error .invalidNode ("function name '" ++ name ++ "' is reserved") (some id)]
    else []
  | _ => []

/-- The findings about a node by itself. -/
def nodeProblems (id : String) (n : Node) : List Diagnostic :=
  missingProblems id n.config ++ arityProblems id n.config n.children.length ++
    nameProblems id n.config

/-! ### Links -/

/-- The error about a broken link. -/
def linkProblem (e : StructureError) : Diagnostic := .error .structuralError e.message e.node?

/-! ### Roots -/

/-- The texts of rules, and findings. -/
structure Diagnosis where
  texts : List String
  diagnostics : List Diagnostic
  deriving DecidableEq, Repr

namespace Diagnosis

/-- The texts as one. -/
def text (d : Diagnosis) : String := Transfer.paragraphs d.texts

/-- The number of errors. -/
def errorCount (d : Diagnosis) : Nat := (d.diagnostics.filter Diagnostic.isError).length

/-- The number of findings that are no errors. -/
def warningCount (d : Diagnosis) : Nat := d.diagnostics.length - d.errorCount

end Diagnosis

/-- The text of the rule of a node tree. -/
def generate (layout : Layout) (tree : Node) : Except ExportError String :=
  match tree.toRule with
  | .error e => .error (.conversion e)
  | .ok r => Transfer.textOf layout r

/-- The findings of a root's round trip, if there is to be one. -/
def tripProblems (s : Settings) (tree : Node) : List Diagnostic :=
  if s.roundTripValidation then
    let report := RoundTrip.validate s.roundTrip tree
    report.errors ++ report.warnings
  else []

/-- The diagnosis of a root.  A tree that cannot be built is left to the findings about links. -/
def diagnoseRoot (s : Settings) (nodes : Forest) (root : String) : Diagnosis :=
  match nodes.build root with
  | .error _ => ⟨[], []⟩
  | .ok tree =>
    match generate s.roundTrip.layout tree with
    | .error e =>
      ⟨[], [.error .generationFailed ("could not generate rule: " ++ e.message) (some root)]⟩
    | .ok text => ⟨[text], tripProblems s tree⟩

/-- The diagnosis of a document. -/
def diagnose (s : Settings) (d : Document) : Diagnosis :=
  let roots := d.roots.map (diagnoseRoot s d.nodes)
  { texts := roots.flatMap Diagnosis.texts
    diagnostics :=
      (d.nodes.entries.flatMap fun e => nodeProblems e.1 e.2) ++
        (d.nodes.structureProblems d.roots).map linkProblem ++
        roots.flatMap Diagnosis.diagnostics }

end Rulebook.Editor
