import Rulebook.Dsl.Trivia
import Rulebook.Rule.Basic
import Rulebook.Text.Identifier

/-!
# Rulebook — Dsl — Lexeme

The words of the rule language: names, keywords, field references, string and number literals, and
comparison symbols.
-/

namespace Rulebook.Dsl

open Grammar

/-! ### Names and keywords -/

/-- A name. -/
def name : Grammar (List Char)
  | [] => .fail .bare []
  | c :: cs =>
    if Text.isNameStart c then .ok (c :: cs.takeWhile Text.isNamePart) (cs.dropWhile Text.isNamePart)
    else .fail .bare (c :: cs)

/-- A name, as a string. -/
def nameString : Grammar String := do
  let cs ← name
  return String.ofList cs

/-- A text in any letter case. -/
def letters (text : List Char) : Grammar Unit := fun cs =>
  if sameLetters text (cs.take text.length) then .ok () (cs.drop text.length) else .fail .bare cs

/-- A keyword, in any letter case, that does not run into a name. -/
def keyword (op : Connective) : Grammar Unit := do
  letters op.keyword.toList
  notBefore Text.isNamePart

/-- A word, in this letter case, that does not run into a name. -/
def word (text : String) : Grammar Unit := do
  exact text.toList
  notBefore Text.isNamePart

/-- The keyword of a connective. -/
def connective : Grammar Connective :=
  (do keyword .and; return .and) <|> (do keyword .or; return .or) <|>
    (do keyword .not; return .not) <|> (do keyword .xor; return .xor) <|>
    (do keyword .implies; return .implies)

/-- A name between `$` with an opening brace and the closing brace, without blanks. -/
def fieldReference : Grammar String := do
  exact ['$', '\x7b']
  let field ← expecting "field name" (commit nameString)
  expectingChar '\x7d' (commit (char '\x7d'))
  return field

/-- The name of a field, bare or as a reference. -/
def fieldName : Grammar String :=
  expecting "field name" (fieldReference <|> nameString)

/-! ### Literals -/

/-- The characters of a string literal after its opening quote. -/
def stringRest : List Char → Outcome (List Char)
  | [] => .fail ⟨true, [.expected "closing quote"], none⟩ []
  | '"' :: cs => .ok [] cs
  | '\\' :: [] => .fail ⟨true, [.expected "escape character"], none⟩ []
  | '\\' :: e :: cs =>
    match stringRest cs with
    | .ok s rest => .ok (Text.unescape e ++ s) rest
    | .fail f rest => .fail f rest
  | c :: cs =>
    match stringRest cs with
    | .ok s rest => .ok (c :: s) rest
    | .fail f rest => .fail f rest

/-- A string literal. -/
def stringLiteral : Grammar String := do
  char '"'
  let cs ← stringRest
  return String.ofList cs

/-- One or more digits. -/
def digits : Grammar (List Char) := fun cs =>
  match cs.takeWhile Char.isDigit with
  | [] => .fail .bare cs
  | d :: ds => .ok (d :: ds) (cs.dropWhile Char.isDigit)

/-- A number: an integer of 64 bits, or with a point the nearest floating-point number. -/
def number : Grammar Literal := do
  let sign ← optional (char '-')
  let whole ← digits
  let frac ← optional (do char '.'; digits)
  match frac with
  | some places =>
    return .float (Binary64.ofDecimal sign.isSome (Decimal.valueOf (whole ++ places)) (-places.length))
  | none =>
    let n : Int := if sign.isSome then -(Decimal.valueOf whole) else Decimal.valueOf whole
    if Literal.inRange n then return .int (Int64.ofInt n) else abort []

/-- A literal value. -/
def literalValue : Grammar Literal :=
  expecting "literal value"
    ((do let s ← stringLiteral; return .string s) <|>
      (do word "true"; return .bool true) <|>
      (do word "false"; return .bool false) <|>
      (do word "null"; return .null) <|>
      number)

/-- The right-hand side of a condition: a field reference or a literal. -/
def operand : Grammar (Literal × OperandKind) :=
  expecting "value"
    ((do let field ← fieldReference; return (.string field, .fieldReference)) <|>
      (do let v ← literalValue; return (v, .literal)))

/-- A natural number below `bound`. -/
def naturalBelow (bound : Nat) : Grammar Nat :=
  expecting "non-negative integer" fun cs =>
    match digits cs with
    | .fail f rest => .fail f rest
    | .ok ds rest =>
      if Decimal.valueOf ds < bound then .ok (Decimal.valueOf ds) rest
      else .fail ⟨false, [], some "number too large to fit in target type"⟩ cs

/-! ### Comparisons -/

/-- A comparison symbol or word. -/
def comparison : Grammar Comparison :=
  (do exact ['>', '=']; return .greaterThanOrEqual) <|>
    (do exact ['>']; return .greaterThan) <|>
    (do exact ['<', '=']; return .lessThanOrEqual) <|>
    (do exact ['<']; return .lessThan) <|>
    (do exact ['=', '=']; return .equals) <|>
    (do exact ['!', '=']; return .notEquals) <|>
    (do word "contains"; return .contains) <|>
    (do word "startsWith"; return .startsWith) <|>
    (do word "endsWith"; return .endsWith)

end Rulebook.Dsl
