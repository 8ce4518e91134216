import Rulebook.Decimal.Binary64

/-!
# Rulebook — Decimal — Rounding

Reading a decimal number into a floating-point one: the nearest representable value, of two equally
near ones that with the even significand, and infinity from half a step above the largest finite
value on.  All steps are exact arithmetic on natural numbers.
-/

namespace Rulebook

/-- The quotient rounded to the nearest integer, a half to the even one. -/
def divideToEven (num den : Nat) : Nat :=
  let q := num / den
  let r := num % den
  if 2 * r < den then q
  else if den < 2 * r then q + 1
  else if q % 2 = 0 then q else q + 1

namespace Binary64

open Decimal (twoTo tenTo)

/-- The magnitude bits of the positive quotient `num / den`, rounded.  The step size `2 ^ q` is
chosen so that the significand has fifty-three bits, or `q = -1074` for the smallest values; a
significand that rounds up to the next power of two carries into the exponent. -/
def magnitudeOfRatio (num den : Nat) : Nat :=
  let scaled := fun q : Int => (num * twoTo (-q), den * twoTo q)
  let guess : Int := (num.log2 : Int) - den.log2 - 52
  let q₀ := if (scaled guess).1 / (scaled guess).2 < fractionRange then guess - 1 else guess
  let q := max q₀ (-1074)
  (q + 1074).toNat * fractionRange + divideToEven (scaled q).1 (scaled q).2

/-- The value nearest to `± num / den`. -/
def ofRatio (negative : Bool) (num den : Nat) : Binary64 :=
  if num = 0 then zero negative
  else ofMagnitude negative (min (magnitudeOfRatio num den) infinityMagnitude)

/-- The value nearest to `± digits · 10 ^ exponent`.  Numbers of more than four hundred decimal
places before or after the point are beyond the range and not computed. -/
def ofDecimal (negative : Bool) (digits : Nat) (exponent : Int) : Binary64 :=
  let places : Int := (Nat.toDigits 10 digits).length + exponent
  if digits = 0 || places < -400 then zero negative
  else if 400 < places then infinity negative
  else ofRatio negative (digits * tenTo exponent) (tenTo (-exponent))

end Binary64

end Rulebook
