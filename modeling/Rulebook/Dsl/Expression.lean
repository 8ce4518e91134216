import Rulebook.Dsl.Call

/-!
# Rulebook — Dsl — Expression

Expressions.  `NOT` binds tightest, then `AND`, `XOR`, `OR` and `IMPLIES`; a chain of one
connective is a single junction of all its operands.  In parentheses stands an expression or a
group: a connective, then its members with commas between them.

Expressions nest in parentheses, in calls and under `NOT`, up to a limit: `unary` reads an operand
with a given number of levels left.
-/

namespace Rulebook.Dsl

open Grammar

/-! ### Chains -/

/-- The further operands of a chain; `fuel` bounds their number. -/
def linksWithin (op : Connective) (operand : Grammar Rule) : Nat → Grammar (List Rule)
  | 0, cs => .ok [] cs
  | fuel + 1, cs =>
    match keyword op (skipTrivia cs) with
    | .fail _ _ => .ok [] cs
    | .ok _ rest =>
      (do
        let r ← commit operand
        let rs ← linksWithin op operand fuel
        return r :: rs : Grammar (List Rule)) rest

/-- The further operands of a chain, each after its keyword. -/
def links (op : Connective) (operand : Grammar Rule) : Grammar (List Rule) := fun cs =>
  linksWithin op operand (cs.length + 1) cs

/-- The rest of a chain after its first operand, and whether there was any. -/
def chainFrom (op : Connective) (operand : Grammar Rule) (first : Rule) :
    Grammar (Rule × Bool) := do
  match ← links op operand with
  | [] => return (first, false)
  | r :: rs => return (.group op (first :: r :: rs), true)

/-- A chain of one connective; a lone operand stands for itself. -/
def chain (op : Connective) (operand : Grammar Rule) : Grammar Rule := do
  let first ← operand
  let (r, _) ← chainFrom op operand first
  return r

/-- Chains of `AND`. -/
def conjunction (unary : Grammar Rule) : Grammar Rule := chain .and unary

/-- Chains of `XOR` over chains of `AND`. -/
def exclusion (unary : Grammar Rule) : Grammar Rule := chain .xor (conjunction unary)

/-- Chains of `OR` over chains of `XOR`. -/
def disjunction (unary : Grammar Rule) : Grammar Rule := chain .or (exclusion unary)

/-- Chains of `IMPLIES` over chains of `OR`. -/
def implication (unary : Grammar Rule) : Grammar Rule := chain .implies (disjunction unary)

/-- The rest of an expression after its first operand, and how many junctions were built around
that operand. -/
def expressionFrom (unary : Grammar Rule) (first : Rule) : Grammar (Rule × Nat) := do
  let (r, a) ← chainFrom .and unary first
  let (r, b) ← chainFrom .xor (conjunction unary) r
  let (r, c) ← chainFrom .or (exclusion unary) r
  let (r, d) ← chainFrom .implies (disjunction unary) r
  return (r, a.toNat + b.toNat + c.toNat + d.toNat)

/-- Puts a `NOT` around the operand `levels` junctions down the first members. -/
def negateFirst : (levels : Nat) → Rule → Rule
  | 0, r => .group .not [r]
  | levels + 1, .junction j (r :: rs) note => .junction j (negateFirst levels r :: rs) note
  | _ + 1, r => r

/-! ### Nesting -/

/-- How deep expressions nest in a text.  A written rule takes at most two levels of text, a
parenthesis and a `NOT`, for each of its own. -/
def textNestingLimit : Nat := 2 * nestingLimit

/-- Reads one level further down, if there is a level left. -/
def nested (below : Option (Grammar Rule)) (p : Grammar Rule → Grammar α) : Grammar α :=
  match below with
  | none => abort [.label "nesting depth", .expected "shallower nesting"]
  | some unary => p unary

/-- An expression; `below` reads an operand one level down. -/
def expression (below : Option (Grammar Rule)) : Grammar Rule :=
  nested below fun unary => do
    trivia
    implication unary

/-! ### Primaries -/

/-- The rest of a condition after its field. -/
def conditionRest (field : String) : Grammar Rule := do
  trivia
  let c ← expecting "comparison operator" (commit comparison)
  trivia
  let (value, kind) ← commit operand
  return .atom (.condition ⟨field, c, value, kind⟩) none

/-- What follows `NOT` at the start of parentheses. -/
inductive Negated where
  /-- An expression, whose first operand the `NOT` belongs to. -/
  | expression (r : Rule)
  /-- The first member of a group under `NOT`. -/
  | member (r : Rule)

/-- What follows `NOT` at the start of parentheses: the first member of a group if a comma comes
next.  `below` and `below₂` read operands one and two levels down. -/
def negated (below below₂ : Option (Grammar Rule)) : Grammar Negated :=
  nested below fun unary => do
    let first ← nested below₂ id
    let (r, levels) ← expressionFrom unary first
    match ← optional (peek (spaced ',')) with
    | some _ => return .member r
    | none => return .expression (negateFirst levels r)

/-- A group in parentheses, up to the closing one. -/
def group (below below₂ : Option (Grammar Rule)) : Grammar Rule := do
  trivia
  let op ← connective
  trivia
  match ← optional (peek (char ')')) with
  | some _ => return .group op []
  | none =>
    if op = .not then
      match ← negated below below₂ with
      | .expression r => return r
      | .member r => return .group op (r :: (← many (do spaced ','; expression below)))
    else
      let first ← expression below
      return .group op (first :: (← many (do spaced ','; expression below)))

/-- A group or an expression in parentheses. -/
def parenthesized (below below₂ : Option (Grammar Rule)) : Grammar Rule := do
  char '('
  let r ← match ← optional (group below below₂) with
    | some r => pure r
    | none => commit (expression below)
  punctuation ')'
  return r

/-- A condition whose field is written as a reference. -/
def referenceCondition : Grammar Rule := do
  let field ← fieldReference
  conditionRest field

/-- A call, or a condition that starts with a bare name. -/
def named (below : Option (Grammar Rule)) : Grammar Rule := do
  let name ← nameString
  match ← optional (spaced '(') with
  | some _ => callBody (expression below) name
  | none => conditionRest name

/-- An operand without a `NOT` in front. -/
def primary (below below₂ : Option (Grammar Rule)) : Grammar Rule := do
  trivia
  expecting "expression"
    (parenthesized below below₂ <|> referenceCondition <|> named below)

/-- An operand; `below` and `below₂` read operands one and two levels down. -/
def operandWith (below below₂ : Option (Grammar Rule)) : Grammar Rule := do
  trivia
  match ← optional (keyword .not) with
  | some _ =>
    let r ← nested below commit
    return .group .not [r]
  | none => primary below below₂

/-- An operand, with a number of levels left below it. -/
def unary : (levels : Nat) → List Char → Outcome Rule
  | 0, cs => operandWith none none cs
  | 1, cs => operandWith (some fun r => unary 0 r) none cs
  | levels + 2, cs =>
    operandWith (some fun r => unary (levels + 1) r) (some fun r => unary levels r) cs

/-- A whole expression of a text. -/
def topExpression : Grammar Rule :=
  expression (some (unary (textNestingLimit - 1)))

/-- A text: an expression between blanks and comments, or nothing but those. -/
def document : Grammar (Option Rule) := do
  trivia
  fun cs =>
    match cs with
    | [] => .ok none []
    | _ =>
      (do
        let r ← topExpression
        trivia
        return some r : Grammar (Option Rule)) cs

end Rulebook.Dsl
