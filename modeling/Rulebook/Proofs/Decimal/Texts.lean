import Rulebook.Decimal.Numeral
import Rulebook.Proofs.Decimal.Shortest

/-!
# Rulebook — Proofs — Decimal — Texts

The written form of a finite number in a rule reads back as that number: it is digits, a point and
digits, and the decimal they stand for rounds to the number (`exists_ruleText`).
-/

namespace Rulebook

namespace Decimal

/-! ### Digits in a row -/

theorem foldl_digits (n : Nat) (ds : List Char) :
    ds.foldl (fun n d => 10 * n + (d.toNat - '0'.toNat)) n = n * 10 ^ ds.length + valueOf ds := by
  induction ds generalizing n with
  | nil => simp [valueOf]
  | cons d ds ih =>
      rw [valueOf, List.foldl_cons, List.foldl_cons, ih, ih (10 * 0 + _), List.length_cons,
        pow_succ]
      ring

theorem valueOf_append (as bs : List Char) :
    valueOf (as ++ bs) = valueOf as * 10 ^ bs.length + valueOf bs := by
  rw [valueOf, List.foldl_append, foldl_digits]
  rfl

theorem valueOf_zero : valueOf ['0'] = 0 := by decide

theorem valueOf_zeros (n : Nat) : valueOf (List.replicate n '0') = 0 := by
  induction n with
  | zero => rfl
  | succ n ih =>
      rw [List.replicate_succ, ← List.singleton_append, valueOf_append, ih, valueOf_zero, zero_mul]

theorem isDigit_zeros {n : Nat} {c : Char} (h : c ∈ List.replicate n '0') : c.isDigit = true := by
  rw [List.eq_of_mem_replicate h]
  decide

/-- Digits with a point among them, and the decimal they stand for. -/
structure IsPositional (text : List Char) (value : ℚ) (whole places : List Char) : Prop where
  text_eq : text = whole ++ '.' :: places
  whole_ne : whole ≠ []
  whole_digits : ∀ c ∈ whole, c.isDigit = true
  places_ne : places ≠ []
  places_digits : ∀ c ∈ places, c.isDigit = true
  value_eq : (valueOf (whole ++ places) : ℚ) * 10 ^ (-(places.length : Int)) = value
  /-- A zero comes first only if nothing else comes before the point. -/
  no_zero : whole = ['0'] ∨ whole.head? ≠ some '0'

theorem isDigit_append {as bs : List Char} (ha : ∀ c ∈ as, c.isDigit = true)
    (hb : ∀ c ∈ bs, c.isDigit = true) : ∀ c ∈ as ++ bs, c.isDigit = true := by
  intro c hc
  rcases List.mem_append.mp hc with hc | hc
  · exact ha c hc
  · exact hb c hc

/-- A number in front of a point and a zero. -/
theorem isPositional_whole (n : Nat) {value : ℚ} (h : (n : ℚ) = value) :
    IsPositional (digitsOf n ++ ['.', '0']) value (digitsOf n) ['0'] where
  text_eq := rfl
  whole_ne := digitsOf_ne_nil n
  whole_digits _ := isDigit_of_mem_digitsOf
  places_ne := by decide
  places_digits := List.forall_mem_singleton.mpr rfl
  value_eq := by
    rw [valueOf_append, valueOf_digitsOf, valueOf_zero, ← h, List.length_singleton, pow_one,
      add_zero, Nat.cast_mul, Nat.cast_one, zpow_neg, zpow_one]
    push_cast
    field_simp
  no_zero := by
    rcases Nat.eq_zero_or_pos n with rfl | hn
    · exact .inl (by decide)
    · exact .inr (digitsOf_head_ne_zero (Nat.ne_of_gt hn))

section Positional

variable {ds : List Char} {e : Int} (digits : ∀ c ∈ ds, c.isDigit = true) (hne : ds ≠ [])
include digits hne

/-- Digits behind a point, with zeros in between. -/
theorem isPositional_behind (hp : ds.length + e ≤ 0) :
    IsPositional (['0', '.'] ++ List.replicate (-(ds.length + e)).toNat '0' ++ ds)
      ((valueOf ds : ℚ) * 10 ^ e) ['0'] (List.replicate (-(ds.length + e)).toNat '0' ++ ds) where
  text_eq := rfl
  whole_ne := by decide
  whole_digits := List.forall_mem_singleton.mpr rfl
  places_ne := List.append_ne_nil_of_right_ne_nil _ hne
  places_digits := isDigit_append (fun _ => isDigit_zeros) digits
  value_eq := by
    have exponent : (-(ds.length + e)).toNat + ds.length = (-e).toNat := by omega
    rw [valueOf_append, valueOf_append, valueOf_zeros, valueOf_zero, List.length_append,
      List.length_replicate, exponent, Int.toNat_of_nonneg (by omega), neg_neg]
    simp
  no_zero := .inl rfl

/-- Digits in front of a point, with zeros in between. -/
theorem isPositional_before (head : ds.head? ≠ some '0') (he : 0 ≤ e) :
    IsPositional (ds ++ List.replicate e.toNat '0' ++ ['.', '0'])
      ((valueOf ds : ℚ) * 10 ^ e) (ds ++ List.replicate e.toNat '0') ['0'] where
  text_eq := rfl
  whole_ne := List.append_ne_nil_of_left_ne_nil hne _
  whole_digits := isDigit_append digits fun _ => isDigit_zeros
  places_ne := by decide
  places_digits := List.forall_mem_singleton.mpr rfl
  value_eq := by
    obtain ⟨k, rfl⟩ := Int.eq_ofNat_of_zero_le he
    rw [valueOf_append, valueOf_append, valueOf_zeros, valueOf_zero, List.length_replicate,
      List.length_singleton]
    push_cast
    rw [Int.toNat_natCast, zpow_natCast, zpow_neg, zpow_one]
    field_simp
    ring
  no_zero := .inr (by rwa [List.head?_append_of_ne_nil _ hne])

omit hne in
/-- A point among digits. -/
theorem isPositional_among (head : ds.head? ≠ some '0') (hp : 0 < ds.length + e) (he : e < 0) :
    IsPositional (ds.take (ds.length + e).toNat ++ '.' :: ds.drop (ds.length + e).toNat)
      ((valueOf ds : ℚ) * 10 ^ e) (ds.take (ds.length + e).toNat)
      (ds.drop (ds.length + e).toNat) := by
  have places : (ds.drop (ds.length + e).toNat).length = (-e).toNat := by
    rw [List.length_drop]
    omega
  refine ⟨rfl, ?_, fun c hc => digits c (List.mem_of_mem_take hc), ?_,
    fun c hc => digits c (List.mem_of_mem_drop hc), ?_, .inr ?_⟩
  · rw [← List.length_pos_iff, List.length_take]
    omega
  · rw [← List.length_pos_iff, places]
    omega
  · rw [List.take_append_drop, places, Int.toNat_of_nonneg (by omega), neg_neg]
  · rwa [List.head?_take, if_neg (by omega)]

end Positional

/-- **The positional notation of a decimal stands for it.** -/
theorem exists_positional {d : Decimal} (hd : d.digits ≠ 0) :
    ∃ whole places, IsPositional d.positional d.value whole places := by
  have digits : ∀ c ∈ digitsOf d.digits, c.isDigit = true := fun _ => isDigit_of_mem_digitsOf
  have head := digitsOf_head_ne_zero hd
  have hne := digitsOf_ne_nil d.digits
  have total : d.value = (valueOf (digitsOf d.digits) : ℚ) * 10 ^ d.exponent := by
    rw [valueOf_digitsOf, value]
  rw [positional, total]
  split
  · rename_i hp
    exact ⟨_, _, isPositional_behind digits hne hp⟩
  · rename_i hp
    split
    · rename_i he
      exact ⟨_, _, isPositional_before digits hne head he⟩
    · rename_i he
      exact ⟨_, _, isPositional_among digits head (Int.lt_of_not_ge hp) (Int.lt_of_not_ge he)⟩

end Decimal

namespace Binary64

open Decimal

variable {x : Binary64}

theorem magnitude_of_significand (hm : x.significand = 0) : x.magnitude = 0 := by
  have small : x.exponentField = 0 := by
    by_contra h
    rw [significand, if_neg h] at hm
    exact absurd (Nat.eq_zero_of_add_eq_zero_right hm) (by decide)
  rw [magnitude_eq, hm, power, small]
  decide

theorem eq_zero_of_magnitude (h : x.magnitude = 0) : x = zero x.negative := by
  rw [zero, ← h, ofMagnitude_magnitude]

theorem ofDecimal_zero (negative : Bool) (exponent : Int) :
    ofDecimal negative 0 exponent = zero negative := by
  simp [ofDecimal]

/-- A whole value is the integer it is written as. -/
theorem wholePart_eq (h : x.isWhole = true) : (x.wholePart : ℚ) = x.value := by
  have whole : 0 ≤ x.power ∨ x.significand % twoTo (-x.power) = 0 := by
    rw [isWhole, Bool.and_eq_true, Bool.or_eq_true, decide_eq_true_eq, decide_eq_true_eq] at h
    exact h.2
  have exact_div : twoTo (-x.power) ∣ x.significand * twoTo x.power := by
    rcases whole with hp | hp
    · have one : twoTo (-x.power) = 1 := by
        simp [twoTo, Int.toNat_of_nonpos (by omega : -x.power ≤ 0)]
      rw [one]
      exact Nat.one_dvd _
    · exact Nat.dvd_mul_right_of_dvd (Nat.dvd_of_mod_eq_zero hp) _
  have split : x.wholePart * twoTo (-x.power) = x.significand * twoTo x.power :=
    Nat.div_mul_cancel exact_div
  rw [value, ← twoTo_div, ← mul_div_assoc, eq_div_iff (twoTo_cast_pos _).ne']
  exact_mod_cast split

theorem digits_ne_zero (hm : x.significand ≠ 0) {d : Decimal} (h : x.RoundsTo d.value) :
    d.digits ≠ 0 := by
  intro hd
  have := lt_of_lt_of_le (two_zpow_pos (-1075)) (h.pos hm)
  rw [Decimal.value, hd, Nat.cast_zero, zero_mul] at this
  exact absurd this (lt_irrefl 0)

/-- A positional text is read as the number that its decimal rounds to. -/
theorem ofDecimal_isPositional (hf : x.isFinite = true) (hm : x.significand ≠ 0)
    {text whole places : List Char} {w : ℚ} (ht : IsPositional text w whole places)
    (h : x.RoundsTo w) :
    ofDecimal x.negative (valueOf (whole ++ places)) (-(places.length : Int)) = x :=
  ofDecimal_eq hf hm (by rwa [ht.value_eq])

/-- **The text of a finite number** is its sign and digits around a point, and reads as it. -/
theorem exists_ruleText (h : x.isFinite = true) :
    ∃ whole places : List Char, x.ruleText = x.sign ++ (whole ++ '.' :: places) ∧
      whole ≠ [] ∧ (∀ c ∈ whole, c.isDigit = true) ∧
      places ≠ [] ∧ (∀ c ∈ places, c.isDigit = true) ∧
      ofDecimal x.negative (valueOf (whole ++ places)) (-(places.length : Int)) = x := by
  have number : x.isNaN = false := by
    rw [isFinite, decide_eq_true_eq] at h
    rw [isNaN, decide_eq_false_iff_not]
    omega
  rw [ruleText, number, h]
  simp only [Bool.not_true, Bool.false_eq_true, if_false]
  cases hw : x.isWhole with
  | true =>
      have text := isPositional_whole x.wholePart (wholePart_eq hw)
      refine ⟨digitsOf x.wholePart, ['0'], by simp, text.whole_ne, text.whole_digits,
        text.places_ne, text.places_digits, ?_⟩
      by_cases hm : x.significand = 0
      · have none : x.wholePart = 0 := by rw [wholePart, hm, Nat.zero_mul, Nat.zero_div]
        rw [none, show valueOf (digitsOf 0 ++ ['0']) = 0 by decide, ofDecimal_zero]
        exact (eq_zero_of_magnitude (magnitude_of_significand hm)).symm
      · exact ofDecimal_isPositional h hm text (roundsTo_value hm)
  | false =>
      have hm : x.significand ≠ 0 := by
        intro hm
        rw [isWhole, h, hm, Nat.zero_mod] at hw
        simp at hw
      have rounds := shortest_roundsTo .up hm
      obtain ⟨whole, places, text⟩ := exists_positional (digits_ne_zero hm rounds)
      refine ⟨whole, places, by simp [text.text_eq], text.whole_ne, text.whole_digits,
        text.places_ne, text.places_digits, ofDecimal_isPositional h hm text rounds⟩

end Binary64

end Rulebook
