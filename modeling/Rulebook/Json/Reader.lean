import Rulebook.Decimal.Digits
import Rulebook.Decimal.Rounding
import Rulebook.Json.Basic

/-!
# Rulebook — Json — Reader

Reading JSON text.  A number with a point or an exponent, the number `-0` and an integer that 64
bits cannot hold read as floating-point numbers.  A decimal reads as the floating-point number
nearest to it, ties to the even one.  That is an assumption about readers of JSON, one that a reader
which rounds more loosely does not meet; where a value is written and read again it is used for the
shortest decimals of numbers only (`Proofs.Json.Floats`).

A text can have the form of JSON and yet not be readable as a whole: a number may be too large for
a floating-point one, a string or a key may hold half of a surrogate pair, and arrays and objects
may nest more than 127 deep.  `form?` leaves such parts unreadable where they stand, for a reader
that passes them over; `read?` refuses the text.
-/

namespace Rulebook.Json

/-- A reader of a value at the start of a text, with the text that follows it. -/
abbrev Reading (α : Type) := List Char → Option (α × List Char)

/-- The four blanks of JSON. -/
def isGap (c : Char) : Bool := c = ' ' || c = '\t' || c = '\n' || c = '\r'

/-- The text without the blanks it starts with. -/
def skipGaps (cs : List Char) : List Char := cs.dropWhile isGap

/-! ### Numbers -/

/-- The digits at the start of a text, at least one. -/
def digits (cs : List Char) : Option (List Char × List Char) :=
  match cs.takeWhile Char.isDigit with
  | [] => none
  | d :: ds => some (d :: ds, cs.dropWhile Char.isDigit)

/-- The digits before the point: no zero stands in front of another digit. -/
def wholeDigits (cs : List Char) : Option (List Char × List Char) :=
  match digits cs with
  | some ('0' :: _ :: _, _) => none
  | r => r

/-- The point and the digits behind it, if there is a point. -/
def fraction : List Char → Option (Option (List Char) × List Char)
  | '.' :: cs => (digits cs).map fun (ds, rest) => (some ds, rest)
  | cs => some (none, cs)

/-- The sign and the digits of an exponent. -/
def signedDigits : List Char → Option (Int × List Char)
  | '-' :: cs => (digits cs).map fun (ds, rest) => (-(Decimal.valueOf ds : Int), rest)
  | '+' :: cs => (digits cs).map fun (ds, rest) => ((Decimal.valueOf ds : Int), rest)
  | cs => (digits cs).map fun (ds, rest) => ((Decimal.valueOf ds : Int), rest)

/-- The exponent, if there is one. -/
def exponent : List Char → Option (Option Int × List Char)
  | 'e' :: cs => (signedDigits cs).map fun (e, rest) => (some e, rest)
  | 'E' :: cs => (signedDigits cs).map fun (e, rest) => (some e, rest)
  | cs => some (none, cs)

/-- The floating-point number of a decimal.  One that is too large is unreadable. -/
def finite (negative : Bool) (digits : Nat) (exponent : Int) : Json :=
  let x := Binary64.ofDecimal negative digits exponent
  if x.isFinite then .float x else .unreadable

/-- The value of a number by its parts. -/
def numberOf (negative : Bool) (whole : List Char) (frac : Option (List Char))
    (exp : Option Int) : Json :=
  match frac, exp with
  | none, none =>
    let n := Decimal.valueOf whole
    let i : Int := if negative then -n else n
    if (negative && n = 0) || !inRange i then finite negative n 0 else .int i
  | _, _ =>
    let places := frac.getD []
    finite negative (Decimal.valueOf (whole ++ places)) (exp.getD 0 - places.length)

/-- A number without its sign. -/
def unsigned (negative : Bool) : Reading Json := fun cs => do
  let (whole, cs) ← wholeDigits cs
  let (frac, cs) ← fraction cs
  let (exp, cs) ← exponent cs
  some (numberOf negative whole frac exp, cs)

/-- A number. -/
def number : Reading Json
  | '-' :: cs => unsigned true cs
  | cs => unsigned false cs

/-! ### Strings -/

/-- The value of a hexadecimal digit. -/
def hexValue (c : Char) : Option Nat :=
  if '0' ≤ c && c ≤ '9' then some (c.toNat - '0'.toNat)
  else if 'a' ≤ c && c ≤ 'f' then some (c.toNat - 'a'.toNat + 10)
  else if 'A' ≤ c && c ≤ 'F' then some (c.toNat - 'A'.toNat + 10)
  else none

/-- Four hexadecimal digits. -/
def hexUnit (a b c d : Char) : Option Nat := do
  some (4096 * (← hexValue a) + 256 * (← hexValue b) + 16 * (← hexValue c) + (← hexValue d))

/-- The character of an escape of one letter. -/
def shortEscape (c : Char) : Option Char :=
  if c = '"' then some '"'
  else if c = '\\' then some '\\'
  else if c = '/' then some '/'
  else if c = 'b' then some '\x08'
  else if c = 'f' then some '\x0c'
  else if c = 'n' then some '\n'
  else if c = 'r' then some '\r'
  else if c = 't' then some '\t'
  else none

/-- The rest of a string literal after its opening quote, as code points and units of pairs. -/
def stringRest : Reading (List Nat)
  | [] => none
  | '"' :: rest => some ([], rest)
  | '\\' :: 'u' :: a :: b :: c :: d :: rest =>
    match hexUnit a b c d with
    | some n => (stringRest rest).map fun (ns, r) => (n :: ns, r)
    | none => none
  | '\\' :: c :: rest =>
    match shortEscape c with
    | some ch => (stringRest rest).map fun (ns, r) => (ch.toNat :: ns, r)
    | none => none
  | c :: rest =>
    if c.toNat < 0x20 || c = '\\' then none
    else (stringRest rest).map fun (ns, r) => (c.toNat :: ns, r)

/-- The character of a code point written in one unit, unless it is half of a pair. -/
def loneUnit (n : Nat) : Option Char :=
  if 0xD800 ≤ n && n < 0xE000 then none else some (Char.ofNat n)

/-- The character of two units that form a pair. -/
def pairedUnits (high low : Nat) : Option Char :=
  if 0xD800 ≤ high && high < 0xDC00 && 0xDC00 ≤ low && low < 0xE000 then
    some (Char.ofNat (0x10000 + 1024 * (high - 0xD800) + (low - 0xDC00)))
  else none

/-- The characters of code points and units, unless half of a pair stands alone. -/
def characters : List Nat → Option (List Char)
  | [] => some []
  | n :: rest =>
    match loneUnit n with
    | some c => (characters rest).map (c :: ·)
    | none =>
      match rest with
      | [] => none
      | low :: rest =>
        match pairedUnits n low with
        | some c => (characters rest).map (c :: ·)
        | none => none

/-- A string literal after its opening quote.  With half of a pair in it, it has no text. -/
def stringText : Reading (Option String) := fun cs =>
  (stringRest cs).map fun (ns, r) => ((characters ns).map String.ofList, r)

/-! ### Values -/

/-- A word that stands for a value. -/
def keyword (word : List Char) (j : Json) : Reading Json := fun cs =>
  if word.isPrefixOf cs then some (j, cs.drop word.length) else none

/-- The items after the first one, up to the closing bracket; `fuel` bounds their number. -/
def moreItems (value : Reading Json) : Nat → Reading (List Json)
  | 0, _ => none
  | fuel + 1, cs =>
    match skipGaps cs with
    | ']' :: rest => some ([], rest)
    | ',' :: rest => do
      let (j, rest) ← value rest
      let (js, rest) ← moreItems value fuel rest
      some (j :: js, rest)
    | _ => none

/-- The items of an array after its opening bracket. -/
def items (value : Reading Json) : Reading (List Json) := fun cs =>
  match skipGaps cs with
  | ']' :: rest => some ([], rest)
  | _ => do
    let (j, rest) ← value cs
    let (js, rest) ← moreItems value (rest.length + 1) rest
    some (j :: js, rest)

/-- One member of an object: a string, a colon and a value.  Without a text for its key there is
no member. -/
def member (value : Reading Json) : Reading (Option (String × Json)) := fun cs =>
  match skipGaps cs with
  | '"' :: rest => do
    let (key, rest) ← stringText rest
    match skipGaps rest with
    | ':' :: rest => do
      let (j, rest) ← value rest
      some (key.map fun k => (k, j), rest)
    | _ => none
  | _ => none

/-- The members after the first one, up to the closing brace; `fuel` bounds their number. -/
def moreMembers (value : Reading Json) : Nat → Reading (List (Option (String × Json)))
  | 0, _ => none
  | fuel + 1, cs =>
    match skipGaps cs with
    | '\x7d' :: rest => some ([], rest)
    | ',' :: rest => do
      let (m, rest) ← member value rest
      let (ms, rest) ← moreMembers value fuel rest
      some (m :: ms, rest)
    | _ => none

/-- The members of an object after its opening brace. -/
def members (value : Reading Json) : Reading (List (Option (String × Json))) := fun cs =>
  match skipGaps cs with
  | '\x7d' :: rest => some ([], rest)
  | _ => do
    let (m, rest) ← member value cs
    let (ms, rest) ← moreMembers value (rest.length + 1) rest
    some (m :: ms, rest)

/-- The object with the given members.  If one of them is missing, the whole is unreadable. -/
def objectOf (members : List (Option (String × Json))) : Json :=
  match members.mapM id with
  | some members => .object members
  | none => .unreadable

/-- A string, which is unreadable without a text. -/
def stringOf : Option String → Json
  | some text => .string text
  | none => .unreadable

/-- A value; `nested` reads the values inside an array or object, which is unreadable unless it
`fits`. -/
def valueWith (nested : Reading Json) (fits : Bool) : Reading Json := fun cs =>
  let whole := fun j : Json => if fits then j else .unreadable
  match skipGaps cs with
  | [] => none
  | '"' :: rest => (stringText rest).map fun (s, r) => (stringOf s, r)
  | '[' :: rest => (items nested rest).map fun (js, r) => (whole (.array js), r)
  | '\x7b' :: rest => (members nested rest).map fun (ms, r) => (whole (objectOf ms), r)
  | 'n' :: rest => keyword ['u', 'l', 'l'] .null rest
  | 't' :: rest => keyword ['r', 'u', 'e'] (.bool true) rest
  | 'f' :: rest => keyword ['a', 'l', 's', 'e'] (.bool false) rest
  | c :: rest => number (c :: rest)

/-- A value whose arrays and objects are readable `depth` deep; `fuel` bounds how deep they may
nest at all. -/
def value : (fuel depth : Nat) → Reading Json
  | 0, _, _ => none
  | fuel + 1, depth, cs => valueWith (value fuel (depth - 1)) (depth ≠ 0) cs

/-- How deep arrays and objects may nest. -/
def depthLimit : Nat := 127

/-- The value that a whole text has the form of.  Nothing nests deeper than the text is long. -/
def form? (cs : List Char) : Option Json :=
  match value (cs.length + 1) depthLimit cs with
  | some (j, rest) => if (skipGaps rest).isEmpty then some j else none
  | none => none

/-- The value that a whole text stands for. -/
def read? (cs : List Char) : Option Json := (form? cs).filter isReadable

/-- The value that a whole string stands for. -/
def parse? (s : String) : Option Json := read? s.toList

end Rulebook.Json
