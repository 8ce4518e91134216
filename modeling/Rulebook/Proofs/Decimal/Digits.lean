import Mathlib.Algebra.Group.Nat.Defs
import Rulebook.Decimal.Digits

/-!
# Rulebook — Proofs — Decimal — Digits

The digits of a number stand for that number, and are digits.

* `valueOf_digitsOf`: reading the digits of a number gives the number.
* `digitsOf_head_ne_zero`: the digits of a number other than zero do not start with a zero.
-/

namespace Rulebook.Decimal

theorem valueOf_eq_ofDigitChars (ds : List Char) : valueOf ds = Nat.ofDigitChars 10 ds 0 :=
  Nat.ofDigitChars_eq_foldl.symm

/-- **The digits of a number stand for it.** -/
theorem valueOf_digitsOf (n : Nat) : valueOf (digitsOf n) = n := by
  rw [valueOf_eq_ofDigitChars]
  exact Nat.ofDigitChars_ten_toDigits

theorem isDigit_of_mem_digitsOf {n : Nat} {c : Char} (h : c ∈ digitsOf n) : c.isDigit = true :=
  Nat.isDigit_of_mem_toDigits (by decide) (by decide) h

theorem digitsOf_ne_nil (n : Nat) : digitsOf n ≠ [] := Nat.toDigits_ne_nil

/-- Digits come first: there is one, and none but digits. -/
theorem exists_digitsOf_eq_cons (n : Nat) : ∃ d ds, digitsOf n = d :: ds ∧ d.isDigit = true ∧
    ∀ c ∈ ds, c.isDigit = true := by
  cases h : digitsOf n with
  | nil => exact absurd h (digitsOf_ne_nil n)
  | cons d ds =>
      have digit : ∀ c ∈ d :: ds, c.isDigit = true := fun c hc =>
        isDigit_of_mem_digitsOf (h ▸ hc)
      exact ⟨d, ds, rfl, digit d List.mem_cons_self,
        fun c hc => digit c (List.mem_cons_of_mem d hc)⟩

theorem digitsOf_of_lt {n : Nat} (h : n < 10) : digitsOf n = [n.digitChar] :=
  Nat.toDigits_of_lt_base h

theorem digitsOf_of_le {n : Nat} (h : 10 ≤ n) :
    digitsOf n = digitsOf (n / 10) ++ [(n % 10).digitChar] :=
  Nat.toDigits_of_base_le (by decide) h

/-- A number other than zero is not written with a zero in front. -/
theorem digitsOf_head_ne_zero {n : Nat} (h : n ≠ 0) : (digitsOf n).head? ≠ some '0' := by
  induction n using Nat.strongRecOn with
  | ind n ih =>
      rcases Nat.lt_or_ge n 10 with hlt | hge
      · rw [digitsOf_of_lt hlt]
        simpa using h
      · obtain ⟨d, ds, hd, -⟩ := exists_digitsOf_eq_cons (n / 10)
        have ih := ih (n / 10) (by omega) (by omega)
        rw [hd] at ih
        rw [digitsOf_of_le hge, hd]
        exact ih

theorem length_digitsOf_le_iff {n k : Nat} (h : 0 < k) : (digitsOf n).length ≤ k ↔ n < 10 ^ k :=
  Nat.length_toDigits_le_iff (by decide) h

end Rulebook.Decimal
