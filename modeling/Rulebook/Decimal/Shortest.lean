import Rulebook.Decimal.Binary64

/-!
# Rulebook — Decimal — Shortest

The shortest decimal that reads back as a given floating-point number, and of those the nearest to
it.  On the grid of decimals with one, two, … digits the two neighbours of the value are tested
against the interval of numbers that round to it; the first grid with a hit wins.
-/

namespace Rulebook

/-- The decimal `digits · 10 ^ exponent`. -/
structure Decimal where
  digits : Nat
  exponent : Int
  deriving DecidableEq, Repr

/-- Which of two equally near decimals is taken. -/
inductive Tie where
  | up
  | even
  deriving DecidableEq, Repr

namespace Decimal

/-- The number of decimal digits. -/
def length (d : Decimal) : Nat := (Nat.toDigits 10 d.digits).length

/-- `d · 10 ^ t ≤ x · 2 ^ p`. -/
def atMost (d : Nat) (t : Int) (x : Nat) (p : Int) : Bool :=
  d * tenTo t * twoTo (-p) ≤ x * twoTo p * tenTo (-t)

/-- `x · 2 ^ p ≤ d · 10 ^ t`. -/
def atLeast (d : Nat) (t : Int) (x : Nat) (p : Int) : Bool :=
  x * twoTo p * tenTo (-t) ≤ d * tenTo t * twoTo (-p)

/-- The largest `d` with `d · 10 ^ t ≤ x · 2 ^ p`. -/
def floor (t : Int) (x : Nat) (p : Int) : Nat :=
  x * twoTo p * tenTo (-t) / (tenTo t * twoTo (-p))

/-- The number `k` with `10 ^ (k - 1) ≤ x · 2 ^ p < 10 ^ k`, for values above `10 ^ -400`. -/
def places (x : Nat) (p : Int) : Int :=
  ((Nat.toDigits 10 (floor (-400) x p)).length : Int) - 400

end Decimal

namespace Binary64

/-- The lower end of the values that round to `x`, in quarters of its step.  Below a power of two
the steps are half as wide. -/
def low (x : Binary64) : Nat :=
  4 * x.significand - if x.fractionField = 0 && 1 < x.exponentField then 1 else 2

/-- The upper end of the values that round to `x`, in quarters of its step. -/
def high (x : Binary64) : Nat := 4 * x.significand + 2

/-- Whether `d · 10 ^ t` reads back as `x`, sign apart: the ends of the interval do when the
significand is even. -/
def covers (x : Binary64) (d : Nat) (t : Int) : Bool :=
  let p := x.power - 2
  if x.significand % 2 = 0 then Decimal.atLeast d t x.low p && Decimal.atMost d t x.high p
  else !Decimal.atMost d t x.low p && !Decimal.atLeast d t x.high p

/-- The better of the two neighbours of `x` on the grid of step `10 ^ t`, if one reads back. -/
def onGrid (tie : Tie) (x : Binary64) (t : Int) : Option Nat :=
  let p := x.power - 2
  let d := Decimal.floor t (4 * x.significand) p
  match x.covers d t, x.covers (d + 1) t with
  | false, false => none
  | true, false => some d
  | false, true => some (d + 1)
  | true, true =>
    let above := Decimal.atMost (2 * d + 1) t (8 * x.significand) p
    let below := Decimal.atLeast (2 * d + 1) t (8 * x.significand) p
    if above && below then
      match tie with
      | .up => some (d + 1)
      | .even => some (if d % 2 = 0 then d else d + 1)
    else some (if above then d + 1 else d)

/-- The same decimal without a zero at its end.  A value just below a power of ten is the only one
whose first hit ends in a zero, and in a single one. -/
def withoutZero (d : Decimal) : Decimal :=
  if d.digits % 10 = 0 then ⟨d.digits / 10, d.exponent + 1⟩ else d

/-- Tries the grids with `n`, `n + 1`, … digits, `fuel` of them. -/
def firstGrid (tie : Tie) (x : Binary64) (places : Int) (n : Nat) : Nat → Decimal
  | 0 => ⟨Decimal.floor (places - n) (4 * x.significand) (x.power - 2), places - n⟩
  | fuel + 1 =>
    match x.onGrid tie (places - n) with
    | some d => withoutZero ⟨d, places - n⟩
    | none => firstGrid tie x places (n + 1) fuel

/-- The shortest decimal that reads back as the finite non-zero number `x`, sign apart.  Seventeen
digits always suffice. -/
def shortest (tie : Tie) (x : Binary64) : Decimal :=
  firstGrid tie x (Decimal.places (4 * x.significand) (x.power - 2)) 1 17

end Binary64

end Rulebook
