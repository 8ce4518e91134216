import Rulebook.Proofs.Decimal.Rounding

/-!
# Rulebook — Proofs — Decimal — Shortest

The shortest decimal of a finite number other than zero rounds to that number
(`shortest_roundsTo`).  A hit on a grid is one by definition; that there is one on the grid of
seventeen digits is because half of its step is less than `2 ^ -54` of the value, and so much there
is to either side of it in its interval.
-/

namespace Rulebook

/-- The number that a decimal stands for. -/
def Decimal.value (d : Decimal) : ℚ := d.digits * 10 ^ d.exponent

namespace Binary64

open Decimal

variable {x : Binary64}

/-- The value of a finite number, sign apart. -/
def value (x : Binary64) : ℚ := x.significand * 2 ^ x.power

theorem value_pos (hm : x.significand ≠ 0) : 0 < x.value :=
  mul_pos (Nat.cast_pos.mpr (Nat.pos_of_ne_zero hm)) (two_zpow_pos _)

/-- In quarters of a step. -/
theorem quarters_eq (x : Binary64) :
    ((4 * x.significand : Nat) : ℚ) * 2 ^ (x.power - 2) = x.value := by
  rw [value, step_eq]
  push_cast
  ring

/-- What is near enough to the value rounds to it. -/
theorem roundsTo_of_near (hm : x.significand ≠ 0) {w : ℚ} (hl : x.value - x.value / 2 ^ 54 < w)
    (hu : w < x.value + x.value / 2 ^ 54) : x.RoundsTo w := by
  have step := two_zpow_pos x.power
  have small : (x.significand : ℚ) + 1 ≤ 2 ^ 53 := by exact_mod_cast significand_lt x
  rw [value] at hl hu
  have above : w < (x.significand + 1 / 2) * 2 ^ x.power := by
    have : (x.significand : ℚ) * 2 ^ x.power ≤ 2 ^ 53 * 2 ^ x.power :=
      mul_le_mul_of_nonneg_right (by linarith) step.le
    linarith
  have below : (x.significand - if x.isStepEnd then 1 / 4 else 1 / 2) * 2 ^ x.power < w := by
    cases hs : x.isStepEnd with
    | true =>
        rw [(of_isStepEnd hs).1] at hl ⊢
        push_cast at hl ⊢
        rw [if_pos rfl]
        linarith
    | false =>
        have : (x.significand : ℚ) * 2 ^ x.power ≤ 2 ^ 53 * 2 ^ x.power :=
          mul_le_mul_of_nonneg_right (by linarith) step.le
        rw [if_neg (by decide)]
        linarith
  rw [RoundsTo, low_eq hm, high_eq]
  split
  · exact ⟨below.le, above.le⟩
  · exact ⟨below, above⟩

theorem roundsTo_value (hm : x.significand ≠ 0) : x.RoundsTo x.value := by
  have := value_pos hm
  exact roundsTo_of_near hm (by linarith) (by linarith)

/-! ### Grids -/

/-- What is found on a grid is one of the two neighbours of the value, and a hit. -/
theorem onGrid_spec (tie : Tie) (x : Binary64) (t : Int) :
    let d := Decimal.floor t (4 * x.significand) (x.power - 2)
    (x.onGrid tie t = none ∧ x.covers d t = false ∧ x.covers (d + 1) t = false) ∨
      (x.onGrid tie t = some d ∧ x.covers d t = true) ∨
      (x.onGrid tie t = some (d + 1) ∧ x.covers (d + 1) t = true) := by
  simp only [onGrid.eq_def]
  generalize Decimal.floor t (4 * x.significand) (x.power - 2) = d
  cases h₁ : x.covers d t with
  | false =>
      cases h₂ : x.covers (d + 1) t with
      | false => exact .inl ⟨rfl, rfl, rfl⟩
      | true => exact .inr (.inr ⟨rfl, rfl⟩)
  | true =>
      cases h₂ : x.covers (d + 1) t with
      | false => exact .inr (.inl ⟨rfl, rfl⟩)
      | true =>
          -- both neighbours are hits, so that it does not matter which is taken
          refine .inr ?_
          cases tie <;> dsimp only <;> split_ifs <;> simp

/-- A hit on a grid rounds to the number. -/
theorem covers_of_onGrid {tie : Tie} {t : Int} {d : Nat} (h : x.onGrid tie t = some d) :
    x.covers d t = true := by
  rcases onGrid_spec tie x t with ⟨e, -⟩ | ⟨e, hc⟩ | ⟨e, hc⟩
  · rw [e] at h
    cases h
  · rw [e] at h
    cases h
    exact hc
  · rw [e] at h
    cases h
    exact hc

/-- There is a hit on a grid that is fine enough. -/
theorem onGrid_ne_none (tie : Tie) (hm : x.significand ≠ 0) {t : Int}
    (ht : (10 : ℚ) ^ t * 10 ^ 16 ≤ x.value) : x.onGrid tie t ≠ none := by
  have pos := value_pos hm
  have step : (0 : ℚ) < 10 ^ t := ten_zpow_pos t
  have below := floor_le t (4 * x.significand) (x.power - 2)
  have above := lt_floor_succ t (4 * x.significand) (x.power - 2)
  rw [quarters_eq] at below above
  rcases onGrid_spec tie x t with ⟨-, h₁, h₂⟩ | ⟨e, -⟩ | ⟨e, -⟩
  · rw [← Bool.not_eq_true, covers_iff] at h₁ h₂
    push_cast at above h₂
    -- the nearer one of the two neighbours is near enough
    by_cases h : x.value - Decimal.floor t (4 * x.significand) (x.power - 2) * 10 ^ t ≤ 10 ^ t / 2
    · exact absurd (roundsTo_of_near hm (by linarith) (by linarith)) h₁
    · exact absurd (roundsTo_of_near hm (by linarith) (by linarith)) h₂
  · rw [e]
    exact Option.some_ne_none _
  · rw [e]
    exact Option.some_ne_none _

theorem withoutZero_value (d : Decimal) : (withoutZero d).value = d.value := by
  rw [withoutZero]
  split
  · rename_i h
    have split : d.digits = d.digits / 10 * 10 := by omega
    rw [Decimal.value, Decimal.value]
    conv_rhs => rw [split]
    rw [zpow_add₀ (by norm_num), zpow_one]
    push_cast
    ring
  · rfl

/-- The first hit, when there is one, rounds to the number. -/
theorem firstGrid_roundsTo {tie : Tie} {places : Int} {fuel n k : Nat} (hk : n ≤ k)
    (hf : k < n + fuel) (h : x.onGrid tie (places - k) ≠ none) :
    x.RoundsTo (firstGrid tie x places n fuel).value := by
  induction fuel generalizing n with
  | zero => omega
  | succ fuel ih =>
      rw [firstGrid]
      split
      · rename_i d hd
        rw [withoutZero_value]
        exact (covers_iff x d (places - n)).mp (covers_of_onGrid hd)
      · rename_i hd
        have hne : n ≠ k := by
          rintro rfl
          exact h hd
        exact ih (by omega) (by omega)

/-- **The shortest decimal rounds to the number.** -/
theorem shortest_roundsTo (tie : Tie) (hm : x.significand ≠ 0) :
    x.RoundsTo (x.shortest tie).value := by
  have large : (10 : ℚ) ^ (-400 : Int) ≤ ((4 * x.significand : Nat) : ℚ) * 2 ^ (x.power - 2) := by
    rw [quarters_eq]
    exact ((roundsTo_value hm).ten_zpow_lt hm).le
  have low := (places_spec large).1
  rw [quarters_eq] at low
  refine firstGrid_roundsTo (k := 17) (by decide) (by decide) (onGrid_ne_none tie hm ?_)
  refine le_trans (le_of_eq ?_) low
  rw [← zpow_natCast (10 : ℚ) 16, ← zpow_add₀ (by norm_num)]
  congr 1
  push_cast
  ring

end Binary64

end Rulebook
