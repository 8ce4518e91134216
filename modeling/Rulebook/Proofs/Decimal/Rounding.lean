import Rulebook.Proofs.Decimal.Rational

/-!
# Rulebook — Proofs — Decimal — Rounding

Every number in the rounding interval of a floating-point number is read as that number
(`ofDecimal_eq`).  The interval is the one that `covers` tests: half a step to either side, a
quarter below a power of two, with its ends when the significand is even.
-/

namespace Rulebook

/-! ### Rounding a quotient -/

/-- A quotient rounds to the number it is within a half of, and to an odd one only if strictly so.
-/
theorem divideToEven_eq {num den k : Nat} (hd : 0 < den) (hl : 2 * k * den ≤ 2 * num + den)
    (hu : 2 * num ≤ 2 * k * den + den)
    (ho : k % 2 = 1 → 2 * k * den < 2 * num + den ∧ 2 * num < 2 * k * den + den) :
    divideToEven num den = k := by
  have split : den * (num / den) + num % den = num := Nat.div_add_mod num den
  have small : num % den < den := Nat.mod_lt _ hd
  rw [divideToEven]
  generalize num / den = q at *
  generalize num % den = r at *
  -- rounded or not, `k` is the quotient or one more
  have above : k ≤ q + 1 := by
    by_contra h
    have : (q + 2) * den ≤ k * den := Nat.mul_le_mul_right den (by omega)
    nlinarith
  have below : q ≤ k := by
    by_contra h
    have : (k + 1) * den ≤ q * den := Nat.mul_le_mul_right den (by omega)
    nlinarith
  rcases Nat.lt_or_ge k (q + 1) with h | h
  · obtain rfl : k = q := by omega
    have hr : 2 * r ≤ den := by nlinarith
    have he : k % 2 = 1 → 2 * r < den := fun h => by nlinarith [(ho h).2]
    split_ifs <;> omega
  · obtain rfl : k = q + 1 := by omega
    have hr : den ≤ 2 * r := by nlinarith
    have he : (q + 1) % 2 = 1 → den < 2 * r := fun h => by nlinarith [(ho h).1]
    split_ifs <;> omega

/-- The same for rational numbers. -/
theorem divideToEven_of_rat {num den k : Nat} (hd : 0 < den)
    (hl : (k : ℚ) - 1 / 2 ≤ num / den) (hu : (num : ℚ) / den ≤ k + 1 / 2)
    (ho : k % 2 = 1 → (k : ℚ) - 1 / 2 < num / den ∧ (num : ℚ) / den < k + 1 / 2) :
    divideToEven num den = k := by
  have pos : (0 : ℚ) < den := Nat.cast_pos.mpr hd
  rw [le_div_iff₀ pos] at hl
  rw [div_le_iff₀ pos] at hu
  rw [lt_div_iff₀ pos, div_lt_iff₀ pos] at ho
  refine divideToEven_eq hd ?_ ?_ fun h => ?_
  · have : (2 * k * den : ℚ) ≤ 2 * num + den := by linarith
    exact_mod_cast this
  · have : (2 * num : ℚ) ≤ 2 * k * den + den := by linarith
    exact_mod_cast this
  · obtain ⟨hl, hu⟩ := ho h
    have low : (2 * k * den : ℚ) < 2 * num + den := by linarith
    have high : (2 * num : ℚ) < 2 * k * den + den := by linarith
    exact ⟨by exact_mod_cast low, by exact_mod_cast high⟩

namespace Binary64

open Decimal

/-! ### The parts of a word -/

variable {x : Binary64}

theorem fractionField_lt (x : Binary64) : x.fractionField < fractionRange :=
  Nat.mod_lt _ (by decide)

/-- Exponent and significand make up the magnitude. -/
theorem magnitude_eq (x : Binary64) :
    x.magnitude = (x.power + 1074).toNat * fractionRange + x.significand := by
  have parts : fractionRange * x.exponentField + x.fractionField = x.magnitude :=
    Nat.div_add_mod _ _
  rw [power, significand]
  split
  · rename_i h
    rw [h] at parts ⊢
    simp only [fractionRange] at parts ⊢
    omega
  · simp only [fractionRange] at parts ⊢
    omega

/-- A floating-point number is made of its sign and its magnitude. -/
theorem ofMagnitude_magnitude (x : Binary64) : ofMagnitude x.negative x.magnitude = x := by
  have hlt : x.bits.toNat < 2 * magnitudeRange := x.bits.toNat_lt
  have word : x.magnitude + (if x.negative then magnitudeRange else 0) = x.bits.toNat := by
    rw [magnitude]
    cases h : x.negative with
    | true =>
        have hn : magnitudeRange ≤ x.bits.toNat := of_decide_eq_true h
        rw [if_pos rfl, Nat.mod_eq_sub_mod hn, Nat.mod_eq_of_lt (by omega)]
        exact Nat.sub_add_cancel hn
    | false =>
        have hn : ¬ magnitudeRange ≤ x.bits.toNat := of_decide_eq_false h
        rw [if_neg (by decide), Nat.mod_eq_of_lt (by omega), Nat.add_zero]
  rw [ofMagnitude, word, UInt64.ofNat_toNat]

theorem exponentField_lt (h : x.isFinite = true) : x.exponentField < 2047 := by
  rw [isFinite, decide_eq_true_eq, infinityMagnitude] at h
  exact Nat.div_lt_of_lt_mul (by rwa [Nat.mul_comm] at h)

theorem power_le (h : x.isFinite = true) : x.power ≤ 971 := by
  have := exponentField_lt h
  rw [power]
  omega

theorem le_power (x : Binary64) : -1074 ≤ x.power := by
  rw [power]
  omega

theorem significand_lt (x : Binary64) : x.significand < 2 ^ 53 := by
  have := fractionField_lt x
  rw [significand]
  simp only [fractionRange] at *
  split <;> omega

/-! ### The rounding interval -/

/-- The numbers that round to `x`, sign apart: those between its two ends, and the ends themselves
when the significand is even. -/
def RoundsTo (x : Binary64) (w : ℚ) : Prop :=
  if x.significand % 2 = 0 then
    (x.low : ℚ) * 2 ^ (x.power - 2) ≤ w ∧ w ≤ x.high * 2 ^ (x.power - 2)
  else (x.low : ℚ) * 2 ^ (x.power - 2) < w ∧ w < x.high * 2 ^ (x.power - 2)

/-- The interval that `covers` tests is the rounding interval. -/
theorem covers_iff (x : Binary64) (d : Nat) (t : Int) :
    x.covers d t = true ↔ x.RoundsTo ((d : ℚ) * 10 ^ t) := by
  rw [covers, RoundsTo]
  split
  · rw [Bool.and_eq_true, atLeast_iff, atMost_iff]
  · rw [Bool.and_eq_true, Bool.not_eq_true', Bool.not_eq_true', ← Bool.not_eq_true,
      ← Bool.not_eq_true, atMost_iff, atLeast_iff, not_le, not_le]

/-- Whether the step below `x` is half as wide as the one above. -/
def isStepEnd (x : Binary64) : Bool := x.fractionField = 0 && 1 < x.exponentField

theorem step_eq (x : Binary64) : (2 : ℚ) ^ x.power = 4 * 2 ^ (x.power - 2) := by
  rw [show x.power = 2 + (x.power - 2) by ring, zpow_add₀ (by norm_num)]
  norm_num

/-- The upper end of the interval is half a step above the number. -/
theorem high_eq (x : Binary64) :
    (x.high : ℚ) * 2 ^ (x.power - 2) = (x.significand + 1 / 2) * 2 ^ x.power := by
  rw [step_eq, high]
  push_cast
  ring

/-- The lower end of the interval is half a step below the number, or a quarter below a power of
two. -/
theorem low_eq (hm : x.significand ≠ 0) : (x.low : ℚ) * 2 ^ (x.power - 2) =
    (x.significand - if x.isStepEnd then 1 / 4 else 1 / 2) * 2 ^ x.power := by
  have four : 1 ≤ 4 * x.significand ∧ 2 ≤ 4 * x.significand := by omega
  rw [step_eq, low, ← isStepEnd]
  split
  · rw [Nat.cast_sub four.1]
    push_cast
    ring
  · rw [Nat.cast_sub four.2]
    push_cast
    ring

/-- At the end of a step the significand is the least full one, and the next smaller step is not
the smallest. -/
theorem of_isStepEnd (h : x.isStepEnd = true) : x.significand = 2 ^ 52 ∧ -1074 < x.power := by
  rw [isStepEnd, Bool.and_eq_true, decide_eq_true_eq, decide_eq_true_eq] at h
  constructor
  · rw [significand, if_neg (by omega), h.1]
    rfl
  · rw [power]
    omega

/-- Above the lowest binade, a number is past the first one of its own, unless the step below it is
half as wide as the one above. -/
theorem lt_significand (h : x.isStepEnd = false) (hp : -1074 < x.power) :
    2 ^ 52 + 1 ≤ x.significand := by
  rw [power] at hp
  rw [isStepEnd, Bool.and_eq_false_iff, decide_eq_false_iff_not, decide_eq_false_iff_not] at h
  rw [significand, if_neg (by omega)]
  simp only [fractionRange]
  omega

/-- The interval, as far as its ends go. -/
theorem RoundsTo.bounds (hm : x.significand ≠ 0) {w : ℚ} (h : x.RoundsTo w) :
    ((x.significand : ℚ) - if x.isStepEnd then 1 / 4 else 1 / 2) * 2 ^ x.power ≤ w ∧
      w ≤ (x.significand + 1 / 2) * 2 ^ x.power := by
  rw [RoundsTo, low_eq hm, high_eq] at h
  split at h
  · exact h
  · exact ⟨h.1.le, h.2.le⟩

/-- An odd significand's interval is without its ends. -/
theorem RoundsTo.strict (hm : x.significand ≠ 0) {w : ℚ} (h : x.RoundsTo w)
    (ho : x.significand % 2 = 1) :
    ((x.significand : ℚ) - if x.isStepEnd then 1 / 4 else 1 / 2) * 2 ^ x.power < w ∧
      w < (x.significand + 1 / 2) * 2 ^ x.power := by
  rw [RoundsTo, low_eq hm, high_eq, if_neg (by omega)] at h
  exact h

/-! ### Reading a quotient -/

theorem two_zpow_pos (n : Int) : (0 : ℚ) < 2 ^ n := zpow_pos (by norm_num) n

theorem lt_of_two_zpow_lt {a b : Int} (h : (2 : ℚ) ^ a < 2 ^ b) : a < b :=
  (zpow_lt_zpow_iff_right₀ (by norm_num)).mp h

/-- The scaled quotient is the quotient in steps of `2 ^ q`. -/
theorem scaled_eq (num den : Nat) (q : Int) :
    ((num * twoTo (-q) : Nat) : ℚ) / (den * twoTo q : Nat) = num / den / 2 ^ q := by
  have := twoTo_cast_pos (-q)
  have := twoTo_cast_pos q
  rw [← twoTo_div]
  push_cast
  field_simp

theorem two_zpow_log2_le {n : Nat} (h : n ≠ 0) : (2 : ℚ) ^ (n.log2 : Int) ≤ n := by
  rw [zpow_natCast]
  exact_mod_cast Nat.log2_self_le h

theorem lt_two_zpow_log2 (n : Nat) : (n : ℚ) < 2 ^ ((n.log2 : Int) + 1) := by
  rw [show (n.log2 : Int) + 1 = ((n.log2 + 1 : Nat) : Int) by omega, zpow_natCast]
  exact_mod_cast Nat.lt_log2_self

/-- The binary logarithms tell the size of a quotient up to a factor of four. -/
theorem quotient_bounds {num den : Nat} (hn : num ≠ 0) (hd : den ≠ 0) :
    (2 : ℚ) ^ ((num.log2 : Int) - den.log2 - 1) ≤ num / den ∧
      (num : ℚ) / den < 2 ^ ((num.log2 : Int) - den.log2 + 1) := by
  have den_pos : (0 : ℚ) < den := Nat.cast_pos.mpr (Nat.pos_of_ne_zero hd)
  constructor
  · rw [le_div_iff₀ den_pos]
    calc (2 : ℚ) ^ ((num.log2 : Int) - den.log2 - 1) * den
        ≤ 2 ^ ((num.log2 : Int) - den.log2 - 1) * 2 ^ ((den.log2 : Int) + 1) :=
          mul_le_mul_of_nonneg_left (lt_two_zpow_log2 den).le (two_zpow_pos _).le
      _ = 2 ^ (num.log2 : Int) := by
          rw [← zpow_add₀ (by norm_num)]
          congr 1
          ring
      _ ≤ num := two_zpow_log2_le hn
  · rw [div_lt_iff₀ den_pos]
    calc (num : ℚ) < 2 ^ ((num.log2 : Int) + 1) := lt_two_zpow_log2 num
      _ = 2 ^ ((num.log2 : Int) - den.log2 + 1) * 2 ^ (den.log2 : Int) := by
          rw [← zpow_add₀ (by norm_num)]
          congr 1
          ring
      _ ≤ 2 ^ ((num.log2 : Int) - den.log2 + 1) * den :=
          mul_le_mul_of_nonneg_left (two_zpow_log2_le hd) (two_zpow_pos _).le

/-- The step is chosen so that the quotient has fifty-three bits in front of it, or it is the
smallest step. -/
theorem magnitudeOfRatio_spec {num den : Nat} (hn : num ≠ 0) (hd : den ≠ 0) :
    ∃ q₀ : Int, (2 : ℚ) ^ (q₀ + 52) ≤ num / den ∧ (num : ℚ) / den < 2 ^ (q₀ + 53) ∧
      magnitudeOfRatio num den = (max q₀ (-1074) + 1074).toNat * fractionRange +
        divideToEven (num * twoTo (-max q₀ (-1074))) (den * twoTo (max q₀ (-1074))) := by
  let guess : Int := (num.log2 : Int) - den.log2 - 52
  obtain ⟨lower, upper⟩ := quotient_bounds hn hd
  rw [show (num.log2 : Int) - den.log2 - 1 = guess + 51 by simp only [guess]; ring] at lower
  rw [show (num.log2 : Int) - den.log2 + 1 = guess + 53 by simp only [guess]; ring] at upper
  have scaled_pos : 0 < den * twoTo guess := Nat.mul_pos (Nat.pos_of_ne_zero hd) (twoTo_pos _)
  -- the guess is one too high when the quotient has but fifty-two bits in front of it
  have test : num * twoTo (-guess) / (den * twoTo guess) < fractionRange ↔
      (num : ℚ) / den < 2 ^ (guess + 52) := by
    rw [Nat.div_lt_iff_lt_mul scaled_pos, ← Nat.cast_lt (α := ℚ), Nat.cast_mul fractionRange,
      ← div_lt_iff₀ (Nat.cast_pos.mpr scaled_pos), scaled_eq, div_lt_iff₀ (two_zpow_pos guess),
      zpow_add₀ (by norm_num), mul_comm ((2 : ℚ) ^ guess)]
    norm_num [fractionRange]
  by_cases h : (num : ℚ) / den < 2 ^ (guess + 52)
  · refine ⟨guess - 1, ?_, ?_, ?_⟩
    · rwa [show guess - 1 + 52 = guess + 51 by ring]
    · rwa [show guess - 1 + 53 = guess + 52 by ring]
    · rw [magnitudeOfRatio]
      simp only [← show guess = (num.log2 : Int) - den.log2 - 52 from rfl, if_pos (test.mpr h)]
  · refine ⟨guess, not_lt.mp h, upper, ?_⟩
    rw [magnitudeOfRatio]
    simp only [← show guess = (num.log2 : Int) - den.log2 - 52 from rfl, if_neg (mt test.mp h)]

theorem two_zpow_add (p : Int) (k : Nat) : (2 : ℚ) ^ (p + k) = 2 ^ k * 2 ^ p := by
  rw [zpow_add₀ (by norm_num), zpow_natCast, mul_comm]

/-- What rounds to a number is within half a step of it. -/
theorem RoundsTo.half (hm : x.significand ≠ 0) {w : ℚ} (h : x.RoundsTo w) :
    ((x.significand : ℚ) - 1 / 2) * 2 ^ x.power ≤ w ∧
      (x.significand % 2 = 1 → ((x.significand : ℚ) - 1 / 2) * 2 ^ x.power < w) := by
  have step := two_zpow_pos x.power
  have wider : ((x.significand : ℚ) - 1 / 2) * 2 ^ x.power ≤
      (x.significand - if x.isStepEnd then 1 / 4 else 1 / 2) * 2 ^ x.power := by
    refine mul_le_mul_of_nonneg_right ?_ step.le
    split <;> linarith
  exact ⟨le_trans wider (h.bounds hm).1, fun ho => lt_of_le_of_lt wider (h.strict hm ho).1⟩

/-- A quotient in the interval of `x` that is measured in the steps of `x`. -/
theorem divideToEven_scaled (hm : x.significand ≠ 0) {num den : Nat} (hd : den ≠ 0)
    (h : x.RoundsTo ((num : ℚ) / den)) :
    divideToEven (num * twoTo (-x.power)) (den * twoTo x.power) = x.significand := by
  have step := two_zpow_pos x.power
  refine divideToEven_of_rat (Nat.mul_pos (Nat.pos_of_ne_zero hd) (twoTo_pos _)) ?_ ?_ fun ho => ?_
  · rw [scaled_eq, le_div_iff₀ step]
    exact (h.half hm).1
  · rw [scaled_eq, div_le_iff₀ step]
    exact (h.bounds hm).2
  · rw [scaled_eq, lt_div_iff₀ step, div_lt_iff₀ step]
    exact ⟨(h.half hm).2 ho, (h.strict hm ho).2⟩

/-- A quotient just below the end of a step of `x`, measured in the smaller steps below it, rounds
up to the end. -/
theorem divideToEven_below (hm : x.significand ≠ 0) (hs : x.isStepEnd = true) {num den : Nat}
    (hd : den ≠ 0) (h : x.RoundsTo ((num : ℚ) / den))
    (hlt : (num : ℚ) / den < 2 ^ (x.power + 52)) :
    divideToEven (num * twoTo (-(x.power - 1))) (den * twoTo (x.power - 1)) = 2 ^ 53 := by
  have step := two_zpow_pos (x.power - 1)
  have double : (2 : ℚ) ^ x.power = 2 * 2 ^ (x.power - 1) := by
    have := two_zpow_add (x.power - 1) 1
    rwa [Nat.cast_one, sub_add_cancel, pow_one] at this
  have low := (h.bounds hm).1
  rw [if_pos hs, (of_isStepEnd hs).1, double] at low
  rw [show (52 : Int) = ((52 : Nat) : Int) from rfl, two_zpow_add, double] at hlt
  push_cast at low
  refine divideToEven_of_rat (Nat.mul_pos (Nat.pos_of_ne_zero hd) (twoTo_pos _)) ?_ ?_ fun ho => ?_
  · rw [scaled_eq, le_div_iff₀ step]
    push_cast
    linarith
  · rw [scaled_eq, div_le_iff₀ step]
    push_cast
    linarith
  · exact absurd ho (by decide)

/-- Only below the end of a step does the interval reach down to a quotient of fewer bits. -/
theorem isStepEnd_of_lt (hm : x.significand ≠ 0) (hp : -1074 < x.power) {w : ℚ}
    (h : x.RoundsTo w) (hlt : w < 2 ^ (x.power + 52)) : x.isStepEnd = true := by
  by_contra hs
  rw [Bool.not_eq_true] at hs
  have full : (2 : ℚ) ^ 52 + 1 ≤ x.significand := by exact_mod_cast lt_significand hs hp
  rw [show (52 : Int) = ((52 : Nat) : Int) from rfl, two_zpow_add] at hlt
  have := lt_of_mul_lt_mul_right (lt_of_le_of_lt (h.half hm).1 hlt) (two_zpow_pos x.power).le
  linarith

/-- **A quotient in the rounding interval is read as that magnitude.** -/
theorem magnitudeOfRatio_eq (hm : x.significand ≠ 0) {num den : Nat} (hn : num ≠ 0) (hd : den ≠ 0)
    (h : x.RoundsTo ((num : ℚ) / den)) : magnitudeOfRatio num den = x.magnitude := by
  obtain ⟨q₀, hl, hu, e⟩ := magnitudeOfRatio_spec hn hd
  have step := two_zpow_pos x.power
  have hp := le_power x
  have small : (x.significand : ℚ) + 1 ≤ 2 ^ 53 := by exact_mod_cast significand_lt x
  have above : (num : ℚ) / den < 2 ^ (x.power + 53) := by
    rw [show (53 : Int) = ((53 : Nat) : Int) from rfl, two_zpow_add]
    refine lt_of_le_of_lt (h.bounds hm).2 (mul_lt_mul_of_pos_right (by linarith) step)
  have hle : q₀ ≤ x.power := by
    have := lt_of_two_zpow_lt (lt_of_le_of_lt hl above)
    omega
  rw [e, magnitude_eq]
  by_cases hq : max q₀ (-1074) = x.power
  · rw [hq, divideToEven_scaled hm hd h]
  · -- the quotient is measured in a smaller step, so that it lies below the end of one
    have hlt : q₀ < x.power := by omega
    have below : (num : ℚ) / den < 2 ^ (x.power + 52) :=
      lt_of_lt_of_le hu (zpow_le_zpow_right₀ (by norm_num) (by omega))
    have stepEnd := isStepEnd_of_lt hm (by omega) h below
    obtain ⟨full, hp'⟩ := of_isStepEnd stepEnd
    have near : x.power + 51 < q₀ + 53 := by
      refine lt_of_two_zpow_lt (lt_of_le_of_lt ?_ hu)
      refine le_trans ?_ (h.half hm).1
      rw [show (51 : Int) = ((51 : Nat) : Int) from rfl, two_zpow_add, full]
      refine mul_le_mul_of_nonneg_right ?_ step.le
      norm_num
    rw [show max q₀ (-1074) = x.power - 1 by omega, divideToEven_below hm stepEnd hd h below, full]
    simp only [fractionRange]
    omega

/-! ### Reading a decimal -/

/-- What rounds to a number is read as it from a ratio. -/
theorem ofRatio_eq (hf : x.isFinite = true) (hm : x.significand ≠ 0) {num den : Nat} (hn : num ≠ 0)
    (hd : den ≠ 0) (h : x.RoundsTo ((num : ℚ) / den)) : ofRatio x.negative num den = x := by
  have hlt : x.magnitude < infinityMagnitude := of_decide_eq_true hf
  rw [ofRatio, if_neg hn, magnitudeOfRatio_eq hm hn hd h, Nat.min_eq_left hlt.le,
    ofMagnitude_magnitude]

/-- What rounds to a number other than zero is not too small for a floating-point number. -/
theorem RoundsTo.pos (hm : x.significand ≠ 0) {w : ℚ} (h : x.RoundsTo w) :
    (2 : ℚ) ^ (-1075 : Int) ≤ w := by
  have one : (1 : ℚ) ≤ x.significand := by exact_mod_cast Nat.pos_of_ne_zero hm
  have step : (2 : ℚ) ^ (-1074 : Int) ≤ 2 ^ x.power :=
    zpow_le_zpow_right₀ (by norm_num) (le_power x)
  have half : (2 : ℚ) ^ (-1074 : Int) = 2 * 2 ^ (-1075 : Int) := by
    rw [show (-1074 : Int) = -1075 + 1 by norm_num, zpow_add₀ (by norm_num), zpow_one, mul_comm]
  have := two_zpow_pos x.power
  have := (h.half hm).1
  generalize (2 : ℚ) ^ (-1075 : Int) = tiny at *
  generalize (2 : ℚ) ^ (-1074 : Int) = small at *
  nlinarith

/-- What rounds to a finite number is not too large for one. -/
theorem RoundsTo.lt (hf : x.isFinite = true) (hm : x.significand ≠ 0) {w : ℚ} (h : x.RoundsTo w) :
    w < (2 : ℚ) ^ (1024 : Int) := by
  have small : (x.significand : ℚ) + 1 ≤ 2 ^ 53 := by exact_mod_cast significand_lt x
  have step : (2 : ℚ) ^ x.power ≤ 2 ^ (971 : Int) :=
    zpow_le_zpow_right₀ (by norm_num) (power_le hf)
  have full : (2 : ℚ) ^ (1024 : Int) = 2 ^ 53 * 2 ^ (971 : Int) := two_zpow_add 971 53
  have := two_zpow_pos x.power
  have below : ((x.significand : ℚ) + 1 / 2) * 2 ^ x.power < 2 ^ 53 * 2 ^ x.power :=
    mul_lt_mul_of_pos_right (by linarith) this
  rw [full]
  refine lt_of_le_of_lt (h.bounds hm).2 (lt_of_lt_of_le below ?_)
  exact mul_le_mul_of_nonneg_left step (by norm_num)

theorem two_zpow_le_ten_zpow {n : Int} (hn : 0 ≤ n) : (2 : ℚ) ^ (3 * n) ≤ 10 ^ n := by
  rw [zpow_mul]
  exact zpow_le_zpow_left₀ hn (by norm_num) (by norm_num)

theorem ten_zpow_pos (n : Int) : (0 : ℚ) < 10 ^ n := zpow_pos (by norm_num) n

/-- No number that rounds to a finite one but zero has four hundred zeros behind the point. -/
theorem RoundsTo.ten_zpow_lt (hm : x.significand ≠ 0) {w : ℚ} (h : x.RoundsTo w) :
    (10 : ℚ) ^ (-400 : Int) < w := by
  have inverse : (10 : ℚ) ^ (-400 : Int) ≤ 2 ^ (-(3 * 400) : Int) := by
    rw [zpow_neg, zpow_neg]
    exact inv_anti₀ (two_zpow_pos _) (two_zpow_le_ten_zpow (by decide))
  refine lt_of_le_of_lt inverse (lt_of_lt_of_le ?_ (h.pos hm))
  exact zpow_lt_zpow_right₀ (by norm_num) (by decide)

/-- What rounds to a number other than zero has not too many zeros behind the point. -/
theorem RoundsTo.places_ge (hm : x.significand ≠ 0) {w : ℚ} (h : x.RoundsTo w) {places : Int}
    (hw : w < 10 ^ places) : -400 ≤ places :=
  ((zpow_lt_zpow_iff_right₀ (by norm_num)).mp (lt_trans (h.ten_zpow_lt hm) hw)).le

/-- No number that rounds to a finite one has more than four hundred places before the point. -/
theorem RoundsTo.places_le (hf : x.isFinite = true) (hm : x.significand ≠ 0) {w : ℚ}
    (h : x.RoundsTo w) {places : Int} (hw : (10 : ℚ) ^ (places - 1) ≤ w) : places ≤ 400 := by
  by_contra hlt
  have huge : (10 : ℚ) ^ (400 : Int) ≤ 10 ^ (places - 1) :=
    zpow_le_zpow_right₀ (by norm_num) (by omega)
  have := lt_of_two_zpow_lt (lt_of_le_of_lt
    (le_trans (two_zpow_le_ten_zpow (by decide)) (le_trans huge hw)) (h.lt hf hm))
  omega

/-- A decimal is below the power of ten of its places. -/
theorem lt_ten_zpow_places (digits : Nat) (exponent : Int) : (digits : ℚ) * 10 ^ exponent <
    10 ^ (((Nat.toDigits 10 digits).length : Int) + exponent) := by
  rw [zpow_add₀ (by norm_num), zpow_natCast]
  exact mul_lt_mul_of_pos_right (by exact_mod_cast lt_pow_length digits) (ten_zpow_pos exponent)

/-- A decimal has the places that its digits and its exponent give it. -/
theorem ten_zpow_places_le {digits : Nat} (h : digits ≠ 0) (exponent : Int) :
    (10 : ℚ) ^ (((Nat.toDigits 10 digits).length : Int) + exponent - 1) ≤
      digits * 10 ^ exponent := by
  have hl : 0 < (Nat.toDigits 10 digits).length := List.length_pos_iff.mpr (digitsOf_ne_nil digits)
  have e : ((Nat.toDigits 10 digits).length : Int) + exponent - 1 =
      (((Nat.toDigits 10 digits).length - 1 : Nat) : Int) + exponent := by omega
  rw [e, zpow_add₀ (by norm_num), zpow_natCast]
  exact mul_le_mul_of_nonneg_right (by exact_mod_cast pow_length_le h) (ten_zpow_pos exponent).le

/-- **A decimal in the rounding interval is read as that number.** -/
theorem ofDecimal_eq (hf : x.isFinite = true) (hm : x.significand ≠ 0) {digits : Nat}
    {exponent : Int} (h : x.RoundsTo ((digits : ℚ) * 10 ^ exponent)) :
    ofDecimal x.negative digits exponent = x := by
  have hd : digits ≠ 0 := by
    rintro rfl
    have := lt_of_lt_of_le (two_zpow_pos (-1075)) (h.pos hm)
    rw [Nat.cast_zero, zero_mul] at this
    exact absurd this (lt_irrefl 0)
  -- the decimal is neither so small nor so large that its digits are not looked at
  have low := h.places_ge hm (lt_ten_zpow_places digits exponent)
  have high := h.places_le hf hm (ten_zpow_places_le hd exponent)
  have ratio : ofRatio x.negative (digits * tenTo exponent) (tenTo (-exponent)) = x := by
    refine ofRatio_eq hf hm (Nat.mul_ne_zero hd (tenTo_pos _).ne') (tenTo_pos _).ne' ?_
    rw [Nat.cast_mul, mul_div_assoc, tenTo_div]
    exact h
  rw [ofDecimal]
  simp only [decide_eq_false hd, decide_eq_false (not_lt.mpr low), Bool.or_false,
    if_neg (not_lt.mpr high), ratio]
  rfl

end Binary64

end Rulebook
