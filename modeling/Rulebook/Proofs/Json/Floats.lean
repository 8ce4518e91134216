import Rulebook.Proofs.Decimal.Texts
import Rulebook.Proofs.Json.Numbers

/-!
# Rulebook — Proofs — Json — Floats

A finite floating-point number of JSON reads back as itself, whatever follows it that could not go
on a number (`number_jsonText`).  It is written with a point or with an exponent, and in both forms
the decimal that stands there rounds to the number.  This is all that later results use of how
numbers are read.
-/

namespace Rulebook.Json

open Text (StartsOutside startsOutside_cons)
open Decimal (valueOf digitsOf IsPositional)

variable {x : Binary64} {rest : List Char}

/-- The sign in front of a number. -/
theorem number_sign (negative : Bool) {c : Char} {cs : List Char} (h : c.isDigit = true) :
    number ((if negative then ['-'] else []) ++ c :: cs) = unsigned negative (c :: cs) := by
  cases negative with
  | true => rfl
  | false => exact number_of_digit h

theorem number_run (negative : Bool) {ds : List Char} (hne : ds ≠ [])
    (hd : ∀ c ∈ ds, c.isDigit = true) (rest : List Char) :
    number ((if negative then ['-'] else []) ++ (ds ++ rest)) = unsigned negative (ds ++ rest) := by
  cases ds with
  | nil => exact absurd rfl hne
  | cons c cs => exact number_sign negative (hd c List.mem_cons_self)

theorem finite_of_ofDecimal (h : x.isFinite = true) {negative : Bool} {n : Nat} {e : Int}
    (hx : Binary64.ofDecimal negative n e = x) : finite negative n e = .float x := by
  rw [finite, hx, if_pos h]

theorem digit_of_part (h : StartsOutside isNumberPart rest) : StartsOutside Char.isDigit rest :=
  h.mono fun c hc => by simp [isNumberPart, hc]

/-- A number with a point. -/
theorem unsigned_positional (negative : Bool) {text whole places : List Char} {w : ℚ}
    (ht : IsPositional text w whole places) (hr : StartsOutside isNumberPart rest) :
    unsigned negative (text ++ rest) =
      some (finite negative (valueOf (whole ++ places)) (-(places.length : Int)), rest) := by
  have first : wholeDigits (whole ++ '.' :: (places ++ rest)) =
      some (whole, '.' :: (places ++ rest)) :=
    wholeDigits_run ht.whole_ne ht.whole_digits ht.no_zero (startsOutside_cons (by decide))
  have second := digits_run ht.places_ne ht.places_digits (digit_of_part hr)
  rw [ht.text_eq, List.append_assoc, List.cons_append]
  simp only [unsigned, first, Option.bind_eq_bind, Option.bind_some, fraction, second,
    Option.map_some, exponent_none hr, numberOf, Option.getD_some, Option.getD_none, zero_sub]

theorem signedDigits_run (e : Int) (hr : StartsOutside isNumberPart rest) :
    signedDigits ((if e < 0 then '-' else '+') :: (digitsOf e.natAbs ++ rest)) =
      some (e, rest) := by
  have run := digits_run (Decimal.digitsOf_ne_nil e.natAbs)
    (fun _ => Decimal.isDigit_of_mem_digitsOf) (digit_of_part hr)
  by_cases h : e < 0
  · have value : -(e.natAbs : Int) = e := by omega
    rw [if_pos h]
    simp only [signedDigits, run, Option.map_some, Decimal.valueOf_digitsOf, value]
  · have value : (e.natAbs : Int) = e := by omega
    rw [if_neg h]
    simp only [signedDigits, run, Option.map_some, Decimal.valueOf_digitsOf, value]

/-- A number with an exponent. -/
theorem unsigned_scientific (negative : Bool) (d : Decimal)
    (hr : StartsOutside isNumberPart rest) :
    ∃ c t, d.scientific ++ rest = c :: t ∧ c.isDigit = true ∧
      unsigned negative (d.scientific ++ rest) =
        some (finite negative d.digits d.exponent, rest) := by
  obtain ⟨c, cs, hds, hc, hcs⟩ := Decimal.exists_digitsOf_eq_cons d.digits
  have total : valueOf (c :: cs) = d.digits := by rw [← hds, Decimal.valueOf_digitsOf]
  generalize he : ((c :: cs).length : Int) + d.exponent - 1 = e
  have point : e - cs.length = d.exponent := by
    rw [← he, List.length_cons]
    omega
  have signed := signedDigits_run e hr
  generalize ht : (if e < 0 then '-' else '+') :: (digitsOf e.natAbs ++ rest) = t at signed
  have one (rest : List Char) (h : StartsOutside Char.isDigit rest) :
      wholeDigits (c :: rest) = some ([c], rest) := by
    refine wholeDigits_run (List.cons_ne_nil c []) (by simpa using hc) ?_ h
    by_cases hz : c = '0'
    · exact .inl (by rw [hz])
    · exact .inr (by simpa using hz)
  -- there is a point behind the first digit only if there are more
  cases cs with
  | nil =>
      have text : d.scientific ++ rest = c :: 'e' :: t := by
        rw [Decimal.scientific, hds, he, ← ht]
        rfl
      refine ⟨c, _, text, hc, ?_⟩
      have whole := one ('e' :: t) (startsOutside_cons (by decide))
      have none : fraction ('e' :: t) = some (none, 'e' :: t) := rfl
      rw [text]
      simp only [unsigned, whole, Option.bind_eq_bind, Option.bind_some, none, exponent, signed,
        Option.map_some, numberOf, Option.getD_none, Option.getD_some, List.append_nil, total,
        point]
  | cons f cs =>
      have text : d.scientific ++ rest = c :: '.' :: ((f :: cs) ++ 'e' :: t) := by
        rw [Decimal.scientific, hds, he, ← ht]
        simp
      refine ⟨c, _, text, hc, ?_⟩
      have whole := one ('.' :: ((f :: cs) ++ 'e' :: t)) (startsOutside_cons (by decide))
      have places := digits_run (List.cons_ne_nil f cs) hcs
        (startsOutside_cons (by decide) : StartsOutside Char.isDigit ('e' :: t))
      rw [text]
      simp only [unsigned, whole, Option.bind_eq_bind, Option.bind_some, fraction, places, exponent,
        signed, Option.map_some, numberOf, Option.getD_some, List.singleton_append, total, point]

/-- **A finite number reads back.** -/
theorem number_jsonText (h : x.isFinite = true) (hr : StartsOutside isNumberPart rest) :
    number (x.jsonText ++ rest) = some (.float x, rest) := by
  rw [Binary64.jsonText, Binary64.sign]
  cases hz : x.isZero with
  | true =>
      have none : x.magnitude = 0 := of_decide_eq_true hz
      have text : IsPositional (digitsOf 0 ++ ['.', '0']) 0 (digitsOf 0) ['0'] :=
        Decimal.isPositional_whole 0 (by norm_num)
      have value : valueOf (digitsOf 0 ++ ['0']) = 0 := by decide
      have read := unsigned_positional x.negative text hr
      rw [value, finite_of_ofDecimal h ((Binary64.ofDecimal_zero _ _).trans
        (Binary64.eq_zero_of_magnitude none).symm)] at read
      rw [if_pos rfl, List.append_assoc]
      exact (number_sign x.negative (by decide)).trans read
  | false =>
      have hm : x.significand ≠ 0 := fun hm =>
        of_decide_eq_false hz (Binary64.magnitude_of_significand hm)
      have rounds := Binary64.shortest_roundsTo .even hm
      rw [if_neg (by decide), List.append_assoc]
      generalize hs : (if x.negative then ['-'] else []) = sign
      split
      · obtain ⟨whole, places, text⟩ :=
          Decimal.exists_positional (Binary64.digits_ne_zero hm rounds)
        have read := unsigned_positional x.negative text hr
        rw [finite_of_ofDecimal h (Binary64.ofDecimal_isPositional h hm text rounds)] at read
        rw [← read, text.text_eq, List.append_assoc, ← hs]
        exact number_run x.negative text.whole_ne text.whole_digits _
      · obtain ⟨c, t, text, hc, read⟩ := unsigned_scientific x.negative (x.shortest .even) hr
        rw [finite_of_ofDecimal h (Binary64.ofDecimal_eq h hm rounds)] at read
        rw [← read, text, ← hs]
        exact number_sign x.negative hc

end Rulebook.Json
