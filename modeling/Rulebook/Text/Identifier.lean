/-!
# Rulebook — Text — Identifier

Names of the rule language: an ASCII letter or underscore, then ASCII letters, digits, underscores
and dots.
-/

namespace Rulebook.Text

/-- Whether a name may start with this character. -/
def isNameStart (c : Char) : Bool := c.isAlpha || c = '_'

/-- Whether a name may go on with this character. -/
def isNamePart (c : Char) : Bool := c.isAlphanum || c = '_' || c = '.'

/-- Whether the whole text is a name. -/
def isName : List Char → Bool
  | [] => false
  | c :: cs => isNameStart c && cs.all isNamePart

theorem isNamePart_of_isNameStart {c : Char} (h : isNameStart c = true) :
    isNamePart c = true := by
  simp only [isNameStart, Bool.or_eq_true] at h
  rcases h with h | h <;> simp [isNamePart, Char.isAlphanum, h]

end Rulebook.Text

namespace Rulebook

/-- Whether a string can stand as a bare name in a rule's text. -/
def isName (name : String) : Bool := Text.isName name.toList

end Rulebook
