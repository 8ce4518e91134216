import Rulebook.Dsl.Lexeme
import Rulebook.Json.Reader

/-!
# Rulebook — Dsl — Call

Calls: a name with arguments in parentheses.  The reserved names have arguments of their own, and
some of them hold rules; any other name is that of a plain function.
-/

namespace Rulebook.Dsl

open Grammar

/-- What the arguments of a call are like. -/
inductive CallForm where
  | requirement (kind : Requirement)
  | forEach
  | uniqueBy
  | length (bound : LengthBound)
  | guarded (guard : Guard)
  | withDefault
  | quota (kind : Quota)
  | contextual
  | template
  | expression
  | custom
  | plain
  deriving DecidableEq, Repr

/-- The reserved names with the forms of their calls. -/
def callForms : List (String × CallForm) :=
  (Requirement.all.map fun k => (k.name, .requirement k)) ++
    [("forEach", .forEach), ("uniqueBy", .uniqueBy),
     (LengthBound.min.callName, .length .min), (LengthBound.max.callName, .length .max)] ++
    (Guard.all.map fun g => (g.name, .guarded g)) ++
    [("withDefault", .withDefault), (Quota.atLeast.name, .quota .atLeast),
     (Quota.exactly.name, .quota .exactly), ("contextual", .contextual),
     ("template", .template), ("expression", .expression), ("custom", .custom)]

/-- The form of a call by its name. -/
def callForm (name : String) : CallForm := (callForms.lookup name).getD .plain

example : callForms.map Prod.fst = reservedCalls := by decide

/-! ### Arguments -/

/-- A character that has to follow, after blanks and comments. -/
def punctuation (c : Char) : Grammar Unit := expectingChar c (commit (spaced c))

/-- An argument that has to follow, after blanks and comments. -/
def argument (p : Grammar α) : Grammar α := do
  trivia
  commit p

/-- A string literal as an argument, named in failures. -/
def stringArgument (what : String) : Grammar String :=
  argument (expecting what stringLiteral)

/-- A list of rules in brackets. -/
def ruleList (rule : Grammar Rule) : Grammar (List Rule) := do
  trivia
  expectingChar '[' (commit (char '['))
  let rules ← separated rule (spaced ',')
  punctuation ']'
  return rules

/-- A parameter of a template: a name, an equals sign and a literal. -/
def parameter : Grammar (String × Literal) := do
  let key ← argument (expecting "parameter name" nameString)
  trivia
  expectingChar '=' (commit (char '='))
  let value ← argument literalValue
  return (key, value)

/-- An argument of a plain function: a literal, or the name of a field. -/
def functionArgument : Grammar Argument :=
  expecting "argument"
    ((do let v ← literalValue; return ⟨v, .literal⟩) <|>
      (do let field ← fieldName; return ⟨.string field, .fieldReference⟩))

/-- The JSON value that a string literal holds. -/
def payload : Grammar Payload :=
  expecting "JSON payload string" fun cs =>
    match stringLiteral cs with
    | .fail f rest => .fail f rest
    | .ok s rest =>
      match Json.parse? s with
      | some j => .ok (.ofJson j) rest
      | none => .fail .bare cs

/-! ### Bodies -/

/-- The arguments of a call up to its closing parenthesis; `rule` reads the rules among them. -/
def callArguments (rule : Grammar Rule) (name : String) : CallForm → Grammar Rule
  | .requirement kind => do
    let target ← argument fieldName
    punctuation ','
    let body ← argument rule
    return .scope (.conditional kind target) body none
  | .forEach => do
    let array ← argument fieldName
    punctuation ','
    let body ← argument rule
    return .scope (.forEach array) body none
  | .uniqueBy => do
    let array ← argument fieldName
    punctuation ','
    let key ← stringArgument "key string"
    return .atom (.uniqueBy array key) none
  | .length bound => do
    let array ← argument fieldName
    punctuation ','
    let limit ← argument (naturalBelow UInt64.size)
    return .atom (.length bound array (UInt64.ofNat limit)) none
  | .guarded guard => do
    let field ← argument fieldName
    punctuation ','
    let body ← argument rule
    return .scope (.guarded guard field) body none
  | .withDefault => do
    let field ← argument fieldName
    punctuation ','
    let value ← argument literalValue
    punctuation ','
    let body ← argument rule
    return .scope (.withDefault field value) body none
  | .quota kind => do
    let count ← argument (naturalBelow UInt32.size)
    punctuation ','
    let members ← ruleList rule
    return .junction (.quota kind (UInt32.ofNat count)) members none
  | .contextual => do
    let source ← stringArgument "template string"
    return .atom (.contextual source) none
  | .template => do
    let id ← stringArgument "template id"
    let params ← many (do spaced ','; parameter)
    return .atom (.template id (.ofList params)) none
  | .expression => do
    let source ← stringArgument "expression string"
    return .atom (.expression source) none
  | .custom => do
    let kind ← stringArgument "custom kind"
    punctuation ','
    let value ← argument payload
    return .atom (.custom kind value) none
  | .plain => do
    trivia
    let args ← separated (do trivia; functionArgument) (spaced ',')
    return .atom (.call name args) none

/-- A call after its opening parenthesis. -/
def callBody (rule : Grammar Rule) (name : String) : Grammar Rule := do
  let r ← callArguments rule name (callForm name)
  punctuation ')'
  return r

end Rulebook.Dsl
