import Rulebook.Dsl.Grammar
import Rulebook.Text.Blank

/-!
# Rulebook — Dsl — Trivia

What may stand between the tokens of a rule: ASCII blanks and comments.  A comment runs from `#`
to the end of its line; a line in which a carriage return stands before anything but a line feed
has no comment.

* `skipTrivia_length_le`: skipping never makes the text longer.
-/

namespace Rulebook.Dsl

/-- Whether every carriage return before the next line feed stands right before it. -/
def lineCloses : List Char → Bool
  | [] => true
  | c :: cs =>
    if c = '\n' then true
    else if c = '\r' then
      match cs with
      | '\n' :: _ => true
      | _ => false
    else lineCloses cs

/-- A text up to the end of its line, and the text from there on. -/
def splitLine : List Char → List Char × List Char
  | [] => ([], [])
  | c :: cs =>
    if c = '\n' then ([], c :: cs)
    else if c = '\r' then
      match cs with
      | '\n' :: _ => ([], c :: cs)
      | _ => let (line, rest) := splitLine cs; (c :: line, rest)
    else let (line, rest) := splitLine cs; (c :: line, rest)

mutual

/-- The text after the blanks and comments it starts with. -/
def skipTrivia : List Char → List Char
  | [] => []
  | c :: cs =>
    if Text.isAsciiBlank c then skipTrivia cs
    else if c = '#' && lineCloses cs then skipComment cs
    else c :: cs

/-- The same from inside a comment. -/
def skipComment : List Char → List Char
  | [] => []
  | c :: cs => if c = '\n' then skipTrivia cs else skipComment cs

end

mutual

theorem skipTrivia_length_le : ∀ cs : List Char, (skipTrivia cs).length ≤ cs.length
  | [] => Nat.le_refl 0
  | c :: cs => by
    rw [skipTrivia]
    split
    · exact Nat.le_succ_of_le (skipTrivia_length_le cs)
    · split
      · exact Nat.le_succ_of_le (skipComment_length_le cs)
      · exact Nat.le_refl _

theorem skipComment_length_le : ∀ cs : List Char, (skipComment cs).length ≤ cs.length
  | [] => Nat.le_refl 0
  | c :: cs => by
    rw [skipComment]
    split
    · exact Nat.le_succ_of_le (skipTrivia_length_le cs)
    · exact Nat.le_succ_of_le (skipComment_length_le cs)

end

/-- Skips blanks and comments. -/
def trivia : Grammar Unit := fun cs => .ok () (skipTrivia cs)

/-- Blanks and comments, then a character. -/
def spaced (c : Char) : Grammar Unit := do
  trivia
  .char c

end Rulebook.Dsl
