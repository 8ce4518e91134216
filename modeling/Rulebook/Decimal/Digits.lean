/-!
# Rulebook — Decimal — Digits

Natural numbers and their decimal digits, the most significant one first.
-/

namespace Rulebook.Decimal

/-- The digits of a natural number. -/
def digitsOf (n : Nat) : List Char := Nat.toDigits 10 n

/-- The number that a list of digits stands for. -/
def valueOf (ds : List Char) : Nat :=
  ds.foldl (fun n d => 10 * n + (d.toNat - '0'.toNat)) 0

end Rulebook.Decimal
