import Rulebook.Decimal.Digits
import Rulebook.Decimal.Shortest

/-!
# Rulebook — Decimal — Numeral

The two written forms of a floating-point number.

* In a rule's text: never an exponent; a whole number with all its digits and `.0`, any other
  with the fewest digits that read back.
* In JSON: the fewest digits that read back, positional for the decimal exponents -5 to 15 and
  otherwise with an exponent that always shows its sign.
-/

namespace Rulebook

namespace Decimal

/-- Positional notation, with a digit on both sides of the point. -/
def positional (d : Decimal) : List Char :=
  let ds := digitsOf d.digits
  let point : Int := ds.length + d.exponent
  if point ≤ 0 then ['0', '.'] ++ List.replicate (-point).toNat '0' ++ ds
  else if 0 ≤ d.exponent then ds ++ List.replicate d.exponent.toNat '0' ++ ['.', '0']
  else ds.take point.toNat ++ '.' :: ds.drop point.toNat

/-- One digit before the point and an exponent with its sign; no point after a lone digit. -/
def scientific (d : Decimal) : List Char :=
  let ds := digitsOf d.digits
  let e : Int := ds.length + d.exponent - 1
  let head := match ds with
    | [] => []
    | [c] => [c]
    | c :: cs => c :: '.' :: cs
  head ++ 'e' :: (if e < 0 then '-' else '+') :: digitsOf e.natAbs

end Decimal

namespace Binary64

/-- The sign in front of a number. -/
def sign (x : Binary64) : List Char := if x.negative then ['-'] else []

/-- The number in a rule's text.  The names of the numbers that are not finite only ever appear
in messages. -/
def ruleText (x : Binary64) : List Char :=
  if x.isNaN then "NaN".toList
  else if !x.isFinite then x.sign ++ "inf".toList
  else if x.isWhole then x.sign ++ Decimal.digitsOf x.wholePart ++ ['.', '0']
  else x.sign ++ (x.shortest .up).positional

/-- The number in JSON text, for a finite one. -/
def jsonText (x : Binary64) : List Char :=
  if x.isZero then x.sign ++ ['0', '.', '0']
  else
    let d := x.shortest .even
    let e : Int := d.length + d.exponent - 1
    x.sign ++ if -5 ≤ e && e ≤ 15 then d.positional else d.scientific

end Binary64

end Rulebook
