import Rulebook.Dsl.Reader
import Rulebook.Lint.TokenChecks
import Rulebook.Schema
import Rulebook.Sorting

/-!
# Rulebook — Lint — Linter

Linting a text: what the grammar says, the checks on its tokens, and if it is a rule the checks on
its conditions, all in order of their places.
-/

namespace Rulebook.Lint

/-! ### Conditions -/

/-- What is known while conditions are checked. -/
structure Context where
  text : List Char
  /-- The byte offsets of the conditions of the text, in order. -/
  offsets : List Nat
  schema : Option Schema

namespace Context

/-- The place of a condition by its number; the start of the text if it has none. -/
def locate (c : Context) (index : Nat) : Location :=
  match c.offsets[index]? with
  | some offset => Text.locate c.text offset
  | none => .start

/-- The finding about a field that the schema does not know. -/
def unknownField (c : Context) (index : Nat) (field : String) : Finding :=
  .of .unknownField (c.locate index) ("unknown field '" ++ field ++ "'") none

/-- What the schema has to say about a condition. -/
def checkCondition (c : Context) (index : Nat) (cond : Condition) : List Finding :=
  match c.schema with
  | none => []
  | some schema =>
    (match schema.lookup cond.field with
    | none => [c.unknownField index cond.field]
    | some info =>
      if info.allows cond.comparison then []
      else
        [.of .operatorNotAllowed (c.locate index)
          ("operator '" ++ cond.comparison.symbol ++ "' is not allowed on field '" ++
            cond.field ++ "'") none]) ++
    match cond.kind, cond.value with
    | .fieldReference, .string other =>
      if (schema.lookup other).isNone then [c.unknownField index other] else []
    | _, _ => []

/-- The finding about a condition that repeats one of `seen`. -/
def checkRepeated (c : Context) (index : Nat) (seen : List Condition) (cond : Condition) :
    List Finding :=
  if seen.any fun s => s.agrees cond then
    [.of .duplicateCondition (c.locate index)
      ("condition on '" ++ cond.field ++ "' repeats an earlier one in the same group") none]
  else []

end Context

/-- The condition that a rule is. -/
def condition? : Rule → Option Condition
  | .atom (.condition c) _ => some c
  | _ => none

/-- Whether repeated conditions among the members of a junction are looked for. -/
def isGroup : Junction → Bool
  | .connective _ => true
  | .quota _ _ => false

mutual

/-- The findings about a rule whose first condition has the given number, and the number of the
first condition behind the rule. -/
def checkRule (c : Context) (index : Nat) : Rule → List Finding × Nat
  | .atom (.condition cond) _ => (c.checkCondition index cond, index + 1)
  | .atom _ _ => ([], index)
  | .scope _ body _ => checkRule c index body
  | .junction j members _ => checkMembers c (isGroup j) [] index members

/-- The findings about the members of a junction, `seen` being the conditions before them. -/
def checkMembers (c : Context) (inGroup : Bool) (seen : List Condition) (index : Nat) :
    List Rule → List Finding × Nat
  | [] => ([], index)
  | r :: rs =>
    let own := (condition? r).toList
    let repeated := if inGroup then own.flatMap (c.checkRepeated index seen) else []
    let (found, next) := checkRule c index r
    let (later, stop) := checkMembers c inGroup (seen ++ own) next rs
    (repeated ++ found ++ later, stop)

end

/-! ### Everything -/

/-- The order of findings: by line, then by column. -/
def Finding.le (a b : Finding) : Bool := !b.location.before a.location

/-- Every finding, check after check. -/
def findings (s : Settings) (schema : Option Schema) (text : List Char) : List Finding :=
  let ts := tokens text
  let parsed := Dsl.read text
  (match parsed with
  | .error e => [Finding.of .parsing e.location e.message none]
  | .ok _ => []) ++
  checkParens text ts ++ checkKeywords text none ts ++
  checkLines s.maxLineLength 1 0 (splitLines text) ++ checkGroups text ts ++
  match parsed with
  | .ok (some r) => (checkRule ⟨text, conditionOffsets ts, schema⟩ 0 r).1
  | _ => []

/-- The findings about a text that are wanted, in order of their places. -/
def lint (s : Settings) (schema : Option Schema) (text : String) : List Finding :=
  sortStable Finding.le
    ((findings s schema text.toList).filter fun f => s.isEnabled f.check)

end Rulebook.Lint
