import Rulebook.Json.Record

/-!
# Rulebook — Vocabulary

The closed sets of words that rules are made of: comparisons, connectives, and the kinds of calls
with a structure of their own.  Every word has a name in JSON, and where the rule language has
another one for it, a symbol, keyword or call name.
-/

namespace Rulebook

/-- Whether two words differ in the case of ASCII letters at most. -/
def sameLetters (a b : List Char) : Bool := a.map Char.toLower = b.map Char.toLower

/-! ### Comparisons -/

/-- The comparison of a field with a value. -/
inductive Comparison where
  | equals
  | notEquals
  | greaterThan
  | greaterThanOrEqual
  | lessThan
  | lessThanOrEqual
  | contains
  | startsWith
  | endsWith
  deriving DecidableEq, Repr

namespace Comparison

/-- Every comparison. -/
def all : List Comparison :=
  [.equals, .notEquals, .greaterThan, .greaterThanOrEqual, .lessThan, .lessThanOrEqual,
   .contains, .startsWith, .endsWith]

/-- The symbol or word in a rule's text. -/
def symbol : Comparison → String
  | .equals => "=="
  | .notEquals => "!="
  | .greaterThan => ">"
  | .greaterThanOrEqual => ">="
  | .lessThan => "<"
  | .lessThanOrEqual => "<="
  | .contains => "contains"
  | .startsWith => "startsWith"
  | .endsWith => "endsWith"

/-- The name in JSON. -/
def name : Comparison → String
  | .equals => "equals"
  | .notEquals => "notEquals"
  | .greaterThan => "greaterThan"
  | .greaterThanOrEqual => "greaterThanOrEqual"
  | .lessThan => "lessThan"
  | .lessThanOrEqual => "lessThanOrEqual"
  | .contains => "contains"
  | .startsWith => "startsWith"
  | .endsWith => "endsWith"

/-- Comparisons that need ordered values. -/
def isOrdering : Comparison → Bool
  | .greaterThan | .greaterThanOrEqual | .lessThan | .lessThanOrEqual => true
  | _ => false

/-- Comparisons that need strings or collections. -/
def isTextual : Comparison → Bool
  | .contains | .startsWith | .endsWith => true
  | _ => false

def toJson (c : Comparison) : Json := .string c.name

def ofJson? : Json.Decoder Comparison := Json.asNamed (all.map fun c => (c.name, c))

end Comparison

/-- What the right-hand side of a condition, or an argument, is: a value or the name of a field. -/
inductive OperandKind where
  | literal
  | fieldReference
  deriving DecidableEq, Repr

namespace OperandKind

/-- The name in JSON. -/
def name : OperandKind → String
  | .literal => "literal"
  | .fieldReference => "fieldReference"

def toJson (k : OperandKind) : Json := .string k.name

def ofJson? : Json.Decoder OperandKind :=
  Json.asNamed ([literal, fieldReference].map fun k => (k.name, k))

end OperandKind

/-! ### Connectives -/

/-- The connective of a group of rules. -/
inductive Connective where
  | and
  | or
  | not
  | xor
  | implies
  deriving DecidableEq, Repr

namespace Connective

/-- Every connective. -/
def all : List Connective := [.and, .or, .not, .xor, .implies]

/-- The keyword in a rule's text. -/
def keyword : Connective → String
  | .and => "AND"
  | .or => "OR"
  | .not => "NOT"
  | .xor => "XOR"
  | .implies => "IMPLIES"

/-- The name in JSON. -/
def name : Connective → String
  | .and => "and"
  | .or => "or"
  | .not => "not"
  | .xor => "xor"
  | .implies => "implies"

/-- The connective of a keyword in any letter case. -/
def ofKeyword? (word : List Char) : Option Connective :=
  all.find? fun op => sameLetters op.keyword.toList word

def toJson (op : Connective) : Json := .string op.name

def ofJson? : Json.Decoder Connective := Json.asNamed (all.map fun op => (op.name, op))

end Connective

/-! ### Kinds of calls -/

/-- What a condition does to its target field. -/
inductive Requirement where
  | requiredIf
  | visibleIf
  | disabledIf
  | readonlyIf
  deriving DecidableEq, Repr

namespace Requirement

/-- Every requirement. -/
def all : List Requirement := [.requiredIf, .visibleIf, .disabledIf, .readonlyIf]

/-- The name, in calls and in JSON. -/
def name : Requirement → String
  | .requiredIf => "requiredIf"
  | .visibleIf => "visibleIf"
  | .disabledIf => "disabledIf"
  | .readonlyIf => "readonlyIf"

def toJson (k : Requirement) : Json := .string k.name

def ofJson? : Json.Decoder Requirement := Json.asNamed (all.map fun k => (k.name, k))

end Requirement

/-- The side from which a length is bounded. -/
inductive LengthBound where
  | min
  | max
  deriving DecidableEq, Repr

namespace LengthBound

/-- The name in JSON. -/
def name : LengthBound → String
  | .min => "min"
  | .max => "max"

/-- The name of the call. -/
def callName : LengthBound → String
  | .min => "minLength"
  | .max => "maxLength"

def toJson (b : LengthBound) : Json := .string b.name

def ofJson? : Json.Decoder LengthBound := Json.asNamed ([min, max].map fun b => (b.name, b))

end LengthBound

/-- When a guarded rule is evaluated at all. -/
inductive Guard where
  | ifDefined
  | ifNotNull
  | ifExists
  deriving DecidableEq, Repr

namespace Guard

/-- Every guard. -/
def all : List Guard := [.ifDefined, .ifNotNull, .ifExists]

/-- The name, in calls and in JSON. -/
def name : Guard → String
  | .ifDefined => "ifDefined"
  | .ifNotNull => "ifNotNull"
  | .ifExists => "ifExists"

def toJson (g : Guard) : Json := .string g.name

def ofJson? : Json.Decoder Guard := Json.asNamed (all.map fun g => (g.name, g))

end Guard

/-- How many of the members of a list have to hold. -/
inductive Quota where
  | atLeast
  | exactly
  deriving DecidableEq, Repr

namespace Quota

/-- The name, in calls and in JSON. -/
def name : Quota → String
  | .atLeast => "atLeast"
  | .exactly => "exactly"

def toJson (q : Quota) : Json := .string q.name

def ofJson? : Json.Decoder Quota := Json.asNamed ([atLeast, exactly].map fun q => (q.name, q))

end Quota

/-- The call names with a structure of their own.  A plain function has none of them. -/
def reservedCalls : List String :=
  ["requiredIf", "visibleIf", "disabledIf", "readonlyIf", "forEach", "uniqueBy", "minLength",
   "maxLength", "ifDefined", "ifNotNull", "ifExists", "withDefault", "atLeast", "exactly",
   "contextual", "template", "expression", "custom"]

/-- Whether a call name has a structure of its own. -/
def isReservedCall (name : String) : Bool := reservedCalls.contains name

end Rulebook
