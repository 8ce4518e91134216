import Rulebook.Decimal.Rounding
import Rulebook.Decimal.Shortest
import Rulebook.Proofs.Decimal.Digits
import Mathlib.Algebra.Order.Field.Power
import Mathlib.Tactic.FieldSimp
import Mathlib.Tactic.Linarith
import Mathlib.Tactic.NormNum
import Mathlib.Tactic.Positivity
import Mathlib.Tactic.Ring

/-!
# Rulebook — Proofs — Decimal — Rational

The comparisons of decimals with binary numbers, which the library does on natural numbers, as
comparisons of rational numbers.
-/

namespace Rulebook.Decimal

/-! ### Powers -/

theorem twoTo_div (n : Int) : (twoTo n : ℚ) / twoTo (-n) = 2 ^ n := by
  rcases Int.le_total 0 n with h | h
  · obtain ⟨k, rfl⟩ := Int.eq_ofNat_of_zero_le h
    simp [twoTo]
  · obtain ⟨k, hk⟩ := Int.eq_ofNat_of_zero_le (Int.neg_nonneg.mpr h)
    obtain rfl : n = -k := by omega
    simp [twoTo]

theorem tenTo_div (n : Int) : (tenTo n : ℚ) / tenTo (-n) = 10 ^ n := by
  rcases Int.le_total 0 n with h | h
  · obtain ⟨k, rfl⟩ := Int.eq_ofNat_of_zero_le h
    simp [tenTo]
  · obtain ⟨k, hk⟩ := Int.eq_ofNat_of_zero_le (Int.neg_nonneg.mpr h)
    obtain rfl : n = -k := by omega
    simp [tenTo]

theorem twoTo_cast_pos (n : Int) : (0 : ℚ) < twoTo n := Nat.cast_pos.mpr (twoTo_pos n)

theorem tenTo_cast_pos (n : Int) : (0 : ℚ) < tenTo n := Nat.cast_pos.mpr (tenTo_pos n)

/-! ### Comparisons -/

theorem atMost_iff (d : Nat) (t : Int) (x : Nat) (p : Int) :
    atMost d t x p = true ↔ (d : ℚ) * 10 ^ t ≤ x * 2 ^ p := by
  have := twoTo_cast_pos (-p)
  have := tenTo_cast_pos (-t)
  rw [atMost, decide_eq_true_eq, ← tenTo_div, ← twoTo_div, ← Nat.cast_le (α := ℚ), ← mul_div_assoc,
    ← mul_div_assoc, div_le_div_iff₀ (by assumption) (by assumption)]
  push_cast
  rfl

theorem atLeast_iff (d : Nat) (t : Int) (x : Nat) (p : Int) :
    atLeast d t x p = true ↔ (x : ℚ) * 2 ^ p ≤ d * 10 ^ t := by
  have := twoTo_cast_pos (-p)
  have := tenTo_cast_pos (-t)
  rw [atLeast, decide_eq_true_eq, ← tenTo_div, ← twoTo_div, ← Nat.cast_le (α := ℚ),
    ← mul_div_assoc, ← mul_div_assoc, div_le_div_iff₀ (by assumption) (by assumption)]
  push_cast
  rfl

/-- The floor is at most the number. -/
theorem floor_le (t : Int) (x : Nat) (p : Int) : (floor t x p : ℚ) * 10 ^ t ≤ x * 2 ^ p := by
  rw [← atMost_iff, atMost, decide_eq_true_eq, Nat.mul_assoc _ (tenTo t) (twoTo (-p)), floor]
  exact Nat.div_mul_le_self _ _

/-- One more than the floor is above the number. -/
theorem lt_floor_succ (t : Int) (x : Nat) (p : Int) :
    (x : ℚ) * 2 ^ p < ((floor t x p + 1 : Nat) : ℚ) * 10 ^ t := by
  rw [← not_le, ← atMost_iff, atMost, decide_eq_true_eq, not_le,
    Nat.mul_assoc _ (tenTo t) (twoTo (-p)), floor]
  exact (Nat.div_lt_iff_lt_mul (Nat.mul_pos (tenTo_pos t) (twoTo_pos (-p)))).mp (Nat.lt_succ_self _)

/-! ### Digits -/

theorem pow_length_le {n : Nat} (h : n ≠ 0) : 10 ^ ((Nat.toDigits 10 n).length - 1) ≤ n := by
  rcases Nat.lt_or_ge ((Nat.toDigits 10 n).length - 1) 1 with h1 | h1
  · rw [show (Nat.toDigits 10 n).length - 1 = 0 by omega]
    exact Nat.pos_of_ne_zero h
  · by_contra hlt
    have := (length_digitsOf_le_iff h1).mpr (not_le.mp hlt)
    rw [digitsOf] at this
    omega

theorem lt_pow_length (n : Nat) : n < 10 ^ (Nat.toDigits 10 n).length :=
  (length_digitsOf_le_iff (List.length_pos_iff.mpr (digitsOf_ne_nil n))).mp (Nat.le_refl _)

/-- The number of decimal places in front of the point of a number. -/
theorem places_spec {x : Nat} {p : Int} (h : (10 : ℚ) ^ (-400 : Int) ≤ x * 2 ^ p) :
    (10 : ℚ) ^ (places x p - 1) ≤ x * 2 ^ p ∧ (x : ℚ) * 2 ^ p < 10 ^ places x p := by
  have above := lt_floor_succ (-400) x p
  have below := floor_le (-400) x p
  rw [places]
  generalize floor (-400) x p = n at above below
  have hn : n ≠ 0 := by
    rintro rfl
    rw [Nat.zero_add, Nat.cast_one, one_mul] at above
    exact absurd h (not_le.mpr above)
  have hlen : 0 < (Nat.toDigits 10 n).length := List.length_pos_iff.mpr (digitsOf_ne_nil n)
  have low : (10 : ℚ) ^ ((Nat.toDigits 10 n).length - 1) ≤ n := by
    exact_mod_cast pow_length_le hn
  have high : ((n + 1 : Nat) : ℚ) ≤ 10 ^ (Nat.toDigits 10 n).length := by
    exact_mod_cast lt_pow_length n
  have step : (0 : ℚ) < 10 ^ (-400 : Int) := zpow_pos (by decide) _
  generalize (Nat.toDigits 10 n).length = l at hlen low high
  constructor
  · have e : (l : Int) - 400 - 1 = ((l - 1 : Nat) : Int) + -400 := by omega
    rw [e, zpow_add₀ (by norm_num), zpow_natCast]
    refine le_trans ?_ below
    exact mul_le_mul_of_nonneg_right low step.le
  · have e : (l : Int) - 400 = (l : Int) + -400 := by omega
    rw [e, zpow_add₀ (by norm_num), zpow_natCast]
    refine lt_of_lt_of_le above ?_
    exact mul_le_mul_of_nonneg_right high step.le

end Rulebook.Decimal
