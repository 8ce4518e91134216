import Rulebook.Lint.Finding
import Rulebook.Lint.Token

/-!
# Rulebook — Lint — TokenChecks

The checks that need only the tokens and lines of a text, so that they also work on a text that is
no rule: parentheses, keywords, lines and groups.
-/

namespace Rulebook.Lint

/-! ### Parentheses -/

/-- The offsets of parentheses without a partner. -/
structure Unmatched where
  /-- Closing ones, in order. -/
  closing : List Nat
  /-- Opening ones, in order. -/
  opening : List Nat
  deriving DecidableEq, Repr

/-- The parentheses without a partner; `openings` are those waiting for one, the last one first. -/
def unmatched (openings : List Nat) : List Token → Unmatched
  | [] => ⟨[], openings.reverse⟩
  | t :: ts =>
    match t.kind, openings with
    | .opening, _ => unmatched (t.start :: openings) ts
    | .closing, _ :: openings => unmatched openings ts
    | .closing, [] =>
      let rest := unmatched [] ts
      { rest with closing := t.start :: rest.closing }
    | _, _ => unmatched openings ts

/-- Parentheses without a partner; the missing closing ones can be put at the end. -/
def checkParens (text : List Char) (tokens : List Token) : List Finding :=
  let u := unmatched [] tokens
  let closing := u.closing.map fun offset =>
    Finding.of .unbalancedParens (Text.locate text offset) "')' has no matching '('" none
  match u.opening with
  | [] => closing
  | first :: _ =>
    let missing := u.opening.length
    let stop := Text.width text
    closing ++
      [Finding.of .unbalancedParens (Text.locate text first) s!"{missing} unclosed '('"
        (some ⟨s!"append {missing} ')'",
          ⟨stop, stop, String.ofList (List.replicate missing ')')⟩⟩)]

/-! ### Keywords -/

/-- Whether a keyword is followed by what makes it the name of a field or of a function. -/
def namesSomething (t : Token) (next : Option Token) : Bool :=
  match next with
  | none => false
  | some n => n.isComparison || (n.kind = .opening && n.start = t.stop)

/-- A keyword that is not in upper case. -/
def checkCase (text : List Char) (t : Token) (op : Connective) : List Finding :=
  if t.text = op.keyword.toList then []
  else
    [Finding.of .lowercaseKeyword (Text.locate text t.start)
      ("keyword '" ++ String.ofList t.text ++ "' should be written '" ++ op.keyword ++ "'")
      (some ⟨"replace with '" ++ op.keyword ++ "'", ⟨t.start, t.stop, op.keyword⟩⟩)]

/-- A `NOT` before another one, unless one stands before it. -/
def checkNegation (text : List Char) (previous : Option Token) (t : Token) (op : Connective)
    (later : List Token) : List Finding :=
  let isNot := fun t : Option Token => t.bind Token.connective? = some .not
  if op = .not && !isNot previous && isNot later.head? then
    let stop := match later.tail.head? with
      | some after => after.start
      | none => Text.width text
    [Finding.of .doubleNegation (Text.locate text t.start) "double negation cancels out"
      (some ⟨"remove both NOT", ⟨t.start, stop, ""⟩⟩)]
  else []

/-- Keywords that could be written better; `previous` is the token before the first one. -/
def checkKeywords (text : List Char) (previous : Option Token) : List Token → List Finding
  | [] => []
  | t :: ts =>
    (match t.connective? with
    | none => []
    | some op =>
      if namesSomething t ts.head? then []
      else checkCase text t op ++ checkNegation text previous t op ts) ++
    checkKeywords text (some t) ts

/-! ### Lines -/

/-- The lines of a text, each with the line feed that ends it. -/
def splitLines : List Char → List (List Char)
  | [] => []
  | c :: cs =>
    if c = '\n' then [c] :: splitLines cs
    else
      match splitLines cs with
      | [] => [[c]]
      | line :: lines => (c :: line) :: lines

/-- A text without the characters of a class at its end. -/
def dropEndWhile (inside : Char → Bool) (cs : List Char) : List Char :=
  (cs.reverse.dropWhile inside).reverse

/-- A line without its end. -/
def lineContent (raw : List Char) : List Char :=
  dropEndWhile (fun c => c = '\n' || c = '\r') raw

/-- Spaces and tabs at the end of a line. -/
def checkLineEnd (number offset : Nat) (line : List Char) : List Finding :=
  let kept := dropEndWhile (fun c => c = ' ' || c = '\t') line
  if kept.length < line.length then
    [Finding.of .trailingWhitespace ⟨number, kept.length + 1⟩ "trailing whitespace"
      (some ⟨"remove trailing whitespace",
        ⟨offset + Text.width kept, offset + Text.width line, ""⟩⟩)]
  else []

/-- A line that is too long. -/
def checkLineLength (limit number : Nat) (line : List Char) : List Finding :=
  if limit < line.length then
    [Finding.of .lineTooLong ⟨number, limit + 1⟩
      s!"line is {line.length} characters long, limit is {limit}" none]
  else []

/-- Lines that could be written better, from a line number and a byte offset on. -/
def checkLines (limit number offset : Nat) : List (List Char) → List Finding
  | [] => []
  | raw :: lines =>
    checkLineEnd number offset (lineContent raw) ++
      checkLineLength limit number (lineContent raw) ++
      checkLines limit (number + 1) (offset + Text.width raw) lines

/-! ### Groups -/

/-- The tokens up to the parenthesis that closes a group, `depth` being the number of
parentheses opened inside. -/
def groupBody (depth : Nat) : List Token → List Token
  | [] => []
  | t :: ts =>
    match t.kind, depth with
    | .closing, 0 => []
    | .closing, depth + 1 => t :: groupBody depth ts
    | .opening, depth => t :: groupBody (depth + 1) ts
    | _, depth => t :: groupBody depth ts

/-- Whether some token outside of the parentheses in a group has a property. -/
def atTop (p : Token → Bool) (depth : Nat) : List Token → Bool
  | [] => false
  | t :: ts =>
    match t.kind, depth with
    | .closing, depth => atTop p (depth - 1) ts
    | .opening, depth => atTop p (depth + 1) ts
    | _, 0 => p t || atTop p 0 ts
    | _, depth => atTop p depth ts

/-- A group that starts at an opening parenthesis with a connective behind it, and has no member
or a single one. -/
def checkGroup (text : List Char) (start : Nat) (op : Connective) (later : List Token) :
    List Finding :=
  let body := groupBody 0 later
  let finding := fun check words =>
    [Finding.of check (Text.locate text start) (op.keyword ++ words) none]
  if body.isEmpty then finding .emptyGroup " group has no conditions"
  else if !atTop (fun t => t.kind = .comma) 0 body && op != .not &&
      !atTop (fun t => t.connective?.isSome) 0 body then
    finding .singleChildGroup " group has a single condition"
  else []

/-- Groups with no member or a single one. -/
def checkGroups (text : List Char) : List Token → List Finding
  | [] => []
  | t :: ts =>
    (match t.kind, ts with
    | .opening, next :: later =>
      match next.connective? with
      | some op => checkGroup text t.start op later
      | none => []
    | _, _ => []) ++ checkGroups text ts

end Rulebook.Lint
