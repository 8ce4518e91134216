/-!
# Rulebook — Decimal — Power

Powers of two and of ten with integer exponents, as natural numbers.  A negative exponent gives
one, so that a factor `2 ^ n` is written as a multiplication by `twoTo n` and a division by
`twoTo (-n)`, of which one does nothing.
-/

namespace Rulebook.Decimal

/-- The power of two with an exponent, one if that is negative. -/
def twoTo (n : Int) : Nat := Nat.pow 2 n.toNat

/-- The power of ten with an exponent, one if that is negative. -/
def tenTo (n : Int) : Nat := Nat.pow 10 n.toNat

theorem twoTo_pos (n : Int) : 0 < twoTo n := Nat.pow_pos (by decide)

theorem tenTo_pos (n : Int) : 0 < tenTo n := Nat.pow_pos (by decide)

end Rulebook.Decimal
