import Rulebook.Json.Reader
import Rulebook.Json.Writer
import Rulebook.Proofs.Decimal.Digits
import Rulebook.Proofs.Text.Run

/-!
# Rulebook — Proofs — Json — Numbers

An integer of JSON reads back as itself, whatever follows it that could not go on a number
(`number_writeInt`).
-/

namespace Rulebook.Json

open Text (StartsOutside startsOutside_cons takeWhile_run dropWhile_run)

/-- The characters that could go on a number. -/
def isNumberPart (c : Char) : Bool := c.isDigit || c = '.' || c = 'e' || c = 'E'

/-- The characters that a number starts with. -/
def isNumberStart (c : Char) : Bool := c.isDigit || c = '-'

theorem digits_run {ds rest : List Char} (hne : ds ≠ []) (hd : ∀ c ∈ ds, c.isDigit = true)
    (h : StartsOutside Char.isDigit rest) : digits (ds ++ rest) = some (ds, rest) := by
  rw [digits, takeWhile_run hd h, dropWhile_run hd h]
  cases ds with
  | nil => exact absurd rfl hne
  | cons d ds => rfl

/-- Digits in front of a point: a zero comes first only alone. -/
theorem wholeDigits_run {ds rest : List Char} (hne : ds ≠ []) (hd : ∀ c ∈ ds, c.isDigit = true)
    (hz : ds = ['0'] ∨ ds.head? ≠ some '0') (h : StartsOutside Char.isDigit rest) :
    wholeDigits (ds ++ rest) = some (ds, rest) := by
  rw [wholeDigits, digits_run hne hd h]
  split
  · rename_i d cs r e
    simp only [Option.some.injEq, Prod.mk.injEq] at e
    rcases hz with hz | hz
    · exact absurd (hz.symm.trans e.1) (by simp)
    · exact absurd (by rw [e.1]; rfl) hz
  · rfl

theorem wholeDigits_digitsOf (n : Nat) {rest : List Char} (h : StartsOutside Char.isDigit rest) :
    wholeDigits (Decimal.digitsOf n ++ rest) = some (Decimal.digitsOf n, rest) := by
  refine wholeDigits_run (Decimal.digitsOf_ne_nil n)
    (fun _ => Decimal.isDigit_of_mem_digitsOf) ?_ h
  rcases Nat.eq_zero_or_pos n with rfl | hn
  · exact .inl (by rw [Decimal.digitsOf_of_lt (by decide)]; rfl)
  · exact .inr (Decimal.digitsOf_head_ne_zero (Nat.ne_of_gt hn))

theorem fraction_none {cs : List Char} (h : StartsOutside isNumberPart cs) :
    fraction cs = some (none, cs) := by
  rw [fraction]
  intro rest e
  subst e
  exact absurd (h '.' rfl) (by decide)

theorem exponent_none {cs : List Char} (h : StartsOutside isNumberPart cs) :
    exponent cs = some (none, cs) := by
  rw [exponent]
  all_goals
    intro rest e
    subst e
    exact absurd (h _ rfl) (by decide)

theorem unsigned_digitsOf (negative : Bool) (n : Nat) {rest : List Char}
    (h : StartsOutside isNumberPart rest) :
    unsigned negative (Decimal.digitsOf n ++ rest) =
      some (numberOf negative (Decimal.digitsOf n) none none, rest) := by
  have hd : StartsOutside Char.isDigit rest := h.mono fun c hc => by simp [isNumberPart, hc]
  simp only [unsigned, wholeDigits_digitsOf n hd, Option.bind_eq_bind, Option.bind_some,
    fraction_none h, exponent_none h]

/-- A text that starts with a digit has no sign. -/
theorem number_of_digit {d : Char} {cs : List Char} (h : d.isDigit = true) :
    number (d :: cs) = unsigned false (d :: cs) := by
  rw [number]
  rintro rest e
  cases e
  exact absurd h (by decide)

/-- **An integer reads back.** -/
theorem number_writeInt {n : Int} (hn : inRange n = true) {rest : List Char}
    (h : StartsOutside isNumberPart rest) : number (writeInt n ++ rest) = some (.int n, rest) := by
  by_cases neg : n < 0
  · have hz : ¬ n.natAbs = 0 := by omega
    have e : -(n.natAbs : Int) = n := by omega
    simp only [writeInt, neg, if_true, List.cons_append, List.nil_append, number,
      unsigned_digitsOf true _ h, numberOf, Decimal.valueOf_digitsOf, e, hn]
    simp [hz]
  · have e : (n.natAbs : Int) = n := by omega
    obtain ⟨d, ds, hds, hd, -⟩ := Decimal.exists_digitsOf_eq_cons n.natAbs
    have run := unsigned_digitsOf false n.natAbs h
    rw [hds, List.cons_append, ← number_of_digit hd, ← List.cons_append, ← hds] at run
    simp only [writeInt, neg, if_false, List.nil_append, run, numberOf, Decimal.valueOf_digitsOf, e]
    simp [hn]

/-- What reads as a number starts like one. -/
theorem exists_numberStart_of_number {cs rest : List Char} {j : Json}
    (h : number cs = some (j, rest)) : ∃ c t, cs = c :: t ∧ isNumberStart c = true := by
  cases cs with
  | nil => simp [number, unsigned, wholeDigits, digits] at h
  | cons c t =>
      refine ⟨c, t, rfl, ?_⟩
      by_cases hm : c = '-'
      · subst hm; decide
      · rw [number] at h
        · cases hd : c.isDigit with
          | true => simp [isNumberStart, hd]
          | false => simp [unsigned, wholeDigits, digits, hd] at h
        · rintro r e
          cases e
          exact hm rfl

end Rulebook.Json
