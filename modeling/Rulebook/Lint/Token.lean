import Rulebook.Dsl.Trivia
import Rulebook.Text.Identifier
import Rulebook.Text.Position
import Rulebook.Vocabulary

/-!
# Rulebook — Lint — Token

The tokens of a text, whether or not the text is a rule: every character that is neither Unicode
white space nor in a comment belongs to one.
-/

namespace Rulebook.Lint

/-- The kinds of tokens. -/
inductive TokenKind where
  | word
  | fieldReference
  | string
  | number
  | comparison
  | opening
  | closing
  | comma
  | comment
  | other
  deriving DecidableEq, Repr

/-- A token, with the byte offset at which it starts. -/
structure Token where
  kind : TokenKind
  text : List Char
  start : Nat
  deriving DecidableEq, Repr

namespace Token

/-- The byte offset behind the token. -/
def stop (t : Token) : Nat := t.start + Text.width t.text

/-- The connective of a keyword. -/
def connective? (t : Token) : Option Connective :=
  if t.kind = .word then Connective.ofKeyword? t.text else none

/-- Whether the token is a comparison, a symbol or a word. -/
def isComparison (t : Token) : Bool :=
  t.kind = .comparison ||
    (t.kind = .word &&
      (t.text = "contains".toList || t.text = "startsWith".toList || t.text = "endsWith".toList))

end Token

/-! ### One token -/

/-- The rest of a string literal after its opening quote, up to the closing one if there is one,
and what follows it. -/
def stringBody : List Char → List Char × List Char
  | [] => ([], [])
  | '"' :: cs => (['"'], cs)
  | '\\' :: [] => ([], ['\\'])
  | '\\' :: c :: cs =>
    let (body, rest) := stringBody cs
    ('\\' :: c :: body, rest)
  | c :: cs =>
    let (body, rest) := stringBody cs
    (c :: body, rest)

/-- The rest of a field reference after its opening brace, up to the closing one if there is one,
and what follows it. -/
def referenceBody : List Char → List Char × List Char
  | [] => ([], [])
  | c :: cs =>
    if c = '\x7d' then ([c], cs)
    else
      let (body, rest) := referenceBody cs
      (c :: body, rest)

/-- A number without its sign, if there is one, and what follows it. -/
def numberBody (cs : List Char) : Option (List Char × List Char) :=
  match cs.takeWhile Char.isDigit, cs.dropWhile Char.isDigit with
  | [], _ => none
  | whole, '.' :: rest =>
    match rest.takeWhile Char.isDigit with
    | [] => some (whole, '.' :: rest)
    | places => some (whole ++ '.' :: places, rest.dropWhile Char.isDigit)
  | whole, rest => some (whole, rest)

/-- A number, if there is one, and what follows it. -/
def numberToken : List Char → Option (List Char × List Char)
  | '-' :: cs => (numberBody cs).map fun (body, rest) => ('-' :: body, rest)
  | cs => numberBody cs

/-- The comparison symbols, the longer ones first. -/
def symbols : List (List Char) :=
  [['>', '='], ['<', '='], ['=', '='], ['!', '='], ['>'], ['<']]

/-- The token at the start of a text that is not empty, and what follows it. -/
def nextToken (c : Char) (cs : List Char) : TokenKind × List Char × List Char :=
  if c = '#' && Dsl.lineCloses cs then
    let (line, rest) := Dsl.splitLine cs
    (.comment, c :: line, rest)
  else if c = '$' && cs.head? = some '\x7b' then
    let (body, rest) := referenceBody cs.tail
    (.fieldReference, '$' :: '\x7b' :: body, rest)
  else if c = '"' then
    let (body, rest) := stringBody cs
    (.string, c :: body, rest)
  else
    match numberToken (c :: cs) with
    | some (body, rest) => (.number, body, rest)
    | none =>
      if Text.isNameStart c then
        (.word, c :: cs.takeWhile Text.isNamePart, cs.dropWhile Text.isNamePart)
      else
        match symbols.find? fun s => s.isPrefixOf (c :: cs) with
        | some s => (.comparison, s, (c :: cs).drop s.length)
        | none =>
          if c = '(' then (.opening, [c], cs)
          else if c = ')' then (.closing, [c], cs)
          else if c = ',' then (.comma, [c], cs)
          else (.other, [c], cs)

/-! ### All tokens -/

/-- The tokens of a text whose first character has the given offset, comments apart.  Every token
takes some text, and `fuel` bounds their number. -/
def tokensWithin : (fuel : Nat) → (offset : Nat) → List Char → List Token
  | 0, _, _ => []
  | fuel + 1, offset, cs =>
    let blanks := cs.takeWhile Text.isBlank
    match cs.dropWhile Text.isBlank with
    | [] => []
    | c :: rest =>
      let start := offset + Text.width blanks
      let (kind, text, rest) := nextToken c rest
      let later := tokensWithin fuel (start + Text.width text) rest
      if kind = .comment then later else ⟨kind, text, start⟩ :: later

/-- The tokens of a text, comments apart. -/
def tokens (text : List Char) : List Token := tokensWithin (text.length + 1) 0 text

/-- The byte offsets at which conditions start: a field, then a comparison.  The operand behind
them is skipped. -/
def conditionOffsets : List Token → List Nat
  | field :: comparison :: operand :: rest =>
    if (field.kind = .fieldReference || field.kind = .word) && comparison.isComparison then
      field.start :: conditionOffsets rest
    else conditionOffsets (comparison :: operand :: rest)
  | [field, comparison] =>
    if (field.kind = .fieldReference || field.kind = .word) && comparison.isComparison then
      [field.start]
    else []
  | _ => []

end Rulebook.Lint
