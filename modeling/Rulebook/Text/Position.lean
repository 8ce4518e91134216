/-!
# Rulebook — Text — Position

Places in a text.  A place is given either as an offset, counted in bytes of the UTF-8 form, or as
a line and a column for people, both counted from one, the column in characters.

* `locate_zero`: the start of a text is line one, column one.
* `width_append`: widths add up.
-/

namespace Rulebook

/-- A line and a column, both counted from one. -/
structure Location where
  line : Nat
  column : Nat
  deriving DecidableEq, Repr

namespace Location

/-- Where every text starts. -/
def start : Location := ⟨1, 1⟩

/-- The place after a character: a line feed starts the next line. -/
def next (l : Location) (c : Char) : Location :=
  if c = '\n' then ⟨l.line + 1, 1⟩ else ⟨l.line, l.column + 1⟩

/-- Whether a place comes before another: by line, then by column. -/
def before (a b : Location) : Bool :=
  a.line < b.line || (a.line = b.line && a.column < b.column)

/-- The wording used in messages. -/
def text (l : Location) : String :=
  s!"line {l.line}, column {l.column}"

end Location

namespace Text

/-- The number of bytes of a text in UTF-8. -/
def width : List Char → Nat
  | [] => 0
  | c :: cs => c.utf8Size + width cs

@[simp] theorem width_append (a b : List Char) : width (a ++ b) = width a + width b := by
  induction a with
  | nil => simp [width]
  | cons c cs ih => simp [width, ih, Nat.add_assoc]

/-- The place of the character that starts at a byte offset, `start` being the place of the text's
first character.  Beyond the end it is the place after the last character. -/
def locateFrom (start : Location) : List Char → Nat → Location
  | [], _ => start
  | c :: cs, offset =>
    if offset < c.utf8Size then start
    else locateFrom (start.next c) cs (offset - c.utf8Size)

/-- The place of a byte offset in a text. -/
def locate (text : List Char) (offset : Nat) : Location :=
  locateFrom .start text offset

theorem locate_zero (text : List Char) : locate text 0 = .start := by
  cases text with
  | nil => rfl
  | cons c cs => simp [locate, locateFrom, Char.utf8Size_pos]

/-- Whether a byte offset falls between two characters, or at an end. -/
def isBoundary : List Char → Nat → Bool
  | _, 0 => true
  | [], _ + 1 => false
  | c :: cs, offset + 1 => c.utf8Size ≤ offset + 1 && isBoundary cs (offset + 1 - c.utf8Size)

/-- The characters before a byte offset. -/
def takeBytes : List Char → Nat → List Char
  | [], _ => []
  | c :: cs, offset => if offset < c.utf8Size then [] else c :: takeBytes cs (offset - c.utf8Size)

/-- The characters from a byte offset on. -/
def dropBytes : List Char → Nat → List Char
  | [], _ => []
  | c :: cs, offset => if offset < c.utf8Size then c :: cs else dropBytes cs (offset - c.utf8Size)

theorem takeBytes_append_dropBytes (cs : List Char) (offset : Nat) :
    takeBytes cs offset ++ dropBytes cs offset = cs := by
  induction cs generalizing offset with
  | nil => rfl
  | cons c cs ih =>
    rw [takeBytes, dropBytes]
    split <;> simp [ih]

end Text

end Rulebook
