import Rulebook.Decimal.Power

/-!
# Rulebook — Decimal — Binary64

Floating-point numbers as their 64-bit words: a sign bit, eleven exponent bits and fifty-two
fraction bits.  A finite word stands for `± significand · 2 ^ power` exactly, and everything the
library does with such a number is done on these two integers.
-/

namespace Rulebook

/-- A floating-point number, by its word.  Two numbers are equal here when their words are. -/
structure Binary64 where
  bits : UInt64
  deriving DecidableEq, Repr

namespace Binary64

open Decimal (twoTo)

/-- The number of magnitudes, `2 ^ 63`: the place value of the sign bit. -/
def magnitudeRange : Nat := 0x8000000000000000

/-- The number of fractions, `2 ^ 52`: the place value of the last exponent bit. -/
def fractionRange : Nat := 0x10000000000000

/-- The word with a given magnitude (exponent and fraction bits) and sign. -/
def ofMagnitude (negative : Bool) (magnitude : Nat) : Binary64 :=
  ⟨UInt64.ofNat (magnitude + if negative then magnitudeRange else 0)⟩

/-- The exponent and fraction bits of infinity. -/
def infinityMagnitude : Nat := 2047 * fractionRange

/-- Infinity of a sign. -/
def infinity (negative : Bool) : Binary64 := ofMagnitude negative infinityMagnitude

/-- Zero of a sign. -/
def zero (negative : Bool) : Binary64 := ofMagnitude negative 0

/-- The sign bit. -/
def negative (x : Binary64) : Bool := magnitudeRange ≤ x.bits.toNat

/-- The exponent and fraction bits. -/
def magnitude (x : Binary64) : Nat := x.bits.toNat % magnitudeRange

/-- The exponent bits. -/
def exponentField (x : Binary64) : Nat := x.magnitude / fractionRange

/-- The fraction bits. -/
def fractionField (x : Binary64) : Nat := x.magnitude % fractionRange

/-- Neither an infinity nor a NaN. -/
def isFinite (x : Binary64) : Bool := x.magnitude < infinityMagnitude

/-- Not a number. -/
def isNaN (x : Binary64) : Bool := infinityMagnitude < x.magnitude

/-- Zero of either sign. -/
def isZero (x : Binary64) : Bool := x.magnitude = 0

/-- The integer `m` of the value `± m · 2 ^ power` of a finite word. -/
def significand (x : Binary64) : Nat :=
  if x.exponentField = 0 then x.fractionField else fractionRange + x.fractionField

/-- The integer `q` of the value `± significand · 2 ^ q` of a finite word. -/
def power (x : Binary64) : Int := (max x.exponentField 1 : Nat) - 1075

/-- Equality of values: the two zeros are equal, and a NaN equals nothing. -/
def agrees (x y : Binary64) : Bool :=
  !x.isNaN && !y.isNaN && (x.bits = y.bits || (x.isZero && y.isZero))

/-- Whether the value is finite and whole. -/
def isWhole (x : Binary64) : Bool :=
  x.isFinite && (0 ≤ x.power || x.significand % twoTo (-x.power) = 0)

/-- The distance of a whole value from zero. -/
def wholePart (x : Binary64) : Nat :=
  x.significand * twoTo x.power / twoTo (-x.power)

end Binary64

end Rulebook
