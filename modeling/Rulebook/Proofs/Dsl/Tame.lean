import Rulebook.Proofs.Dsl.Literals

/-!
# Rulebook — Proofs — Dsl — Tame

Texts in which every number is finite.  What a run of digits is read as hangs on where the reading
starts, for digits may also stand in a name, in a string literal or in a comment.  A text is *tame*
if, cut into words, string literals, comments and single characters from its start, it has no
number beyond the range of floating-point numbers (`Tame`).  What is left of a tame text behind one
of those pieces is tame again (`Tame.of_name`, `Tame.of_digits` and others).
-/

namespace Rulebook

/-- The sign makes no difference to whether a decimal number is finite. -/
theorem Binary64.isFinite_ofDecimal (negative : Bool) (digits : Nat) (exponent : Int) :
    (ofDecimal negative digits exponent).isFinite = (ofDecimal false digits exponent).isFinite := by
  have magnitude (n : Nat) :
      (ofMagnitude negative n).magnitude = (ofMagnitude false n).magnitude := by
    cases negative with
    | false => rfl
    | true =>
        simp [ofMagnitude, Binary64.magnitude, magnitudeRange, UInt64.toNat_ofNat']
  have same {x y : Binary64} (h : x.magnitude = y.magnitude) : x.isFinite = y.isFinite := by
    rw [isFinite, isFinite, h]
  rw [ofDecimal, ofDecimal]
  split
  · exact same (magnitude _)
  · split
    · exact same (magnitude _)
    · rw [ofRatio, ofRatio]
      split
      · exact same (magnitude _)
      · exact same (magnitude _)

namespace Dsl

open Grammar
open Text (StartsOutside startsOutside_cons startsOutside_nil takeWhile_run dropWhile_run)

/-! ### Tame texts -/

/-- A character that is read by itself outside of comments. -/
def isPlain (c : Char) : Bool :=
  !Text.isNameStart c && !c.isDigit && c != '"' && c != '#'

/-- The number that starts with the digits here is finite, if a point follows them. -/
def FiniteHere (cs : List Char) : Prop :=
  ∀ rest, cs.dropWhile Char.isDigit = '.' :: rest →
    (Binary64.ofDecimal false
      (Decimal.valueOf (cs.takeWhile Char.isDigit ++ rest.takeWhile Char.isDigit))
      (-(rest.takeWhile Char.isDigit).length)).isFinite = true

/-- Piece by piece, a text in which every number is finite. -/
inductive Tame : List Char → Prop where
  | nil : Tame []
  | name {c : Char} {cs : List Char} (h : Text.isNameStart c = true)
      (t : Tame (cs.dropWhile Text.isNamePart)) : Tame (c :: cs)
  | digits {c : Char} {cs : List Char} (h : c.isDigit = true) (finite : FiniteHere (c :: cs))
      (t : Tame (cs.dropWhile Char.isDigit)) : Tame (c :: cs)
  | string {cs s rest : List Char} (h : stringRest cs = .ok s rest) (t : Tame rest) :
      Tame ('"' :: cs)
  | comment {cs : List Char} (t : Tame (skipComment cs)) : Tame ('#' :: cs)
  | plain {c : Char} {cs : List Char} (h : isPlain c = true) (t : Tame cs) : Tame (c :: cs)

namespace Tame

variable {c : Char} {cs rest : List Char}

theorem of_name (h : Tame (c :: cs)) (hc : Text.isNameStart c = true) :
    Tame (cs.dropWhile Text.isNamePart) := by
  cases h with
  | name _ t => exact t
  | digits hd _ _ => rw [isDigit_of_isNameStart hc] at hd; cases hd
  | string _ _ => cases hc
  | comment _ => cases hc
  | plain hp _ => simp [isPlain, hc] at hp

theorem of_digits (h : Tame (c :: cs)) (hc : c.isDigit = true) :
    FiniteHere (c :: cs) ∧ Tame (cs.dropWhile Char.isDigit) := by
  cases h with
  | name hn _ => rw [isDigit_of_isNameStart hn] at hc; cases hc
  | digits _ finite t => exact ⟨finite, t⟩
  | string _ _ => cases hc
  | comment _ => cases hc
  | plain hp _ => simp [isPlain, hc] at hp

theorem of_string (h : Tame ('"' :: cs)) {s : List Char} (hs : stringRest cs = .ok s rest) :
    Tame rest := by
  cases h with
  | name hn _ => cases hn
  | digits hd _ _ => cases hd
  | string hs' t =>
      rw [hs] at hs'
      cases hs'
      exact t
  | plain hp _ => cases hp

theorem of_comment (h : Tame ('#' :: cs)) : Tame (skipComment cs) := by
  cases h with
  | name hn _ => cases hn
  | digits hd _ _ => cases hd
  | comment t => exact t
  | plain hp _ => cases hp

theorem of_plain (h : Tame (c :: cs)) (hc : isPlain c = true) : Tame cs := by
  cases h with
  | name hn _ => simp [isPlain, hn] at hc
  | digits hd _ _ => simp [isPlain, hd] at hc
  | string _ _ => cases hc
  | comment _ => cases hc
  | plain _ t => exact t

/-- A whole word is taken from the start. -/
theorem of_word {w : List Char} (h : Tame (w ++ rest)) (hw : Text.isName w = true)
    (hr : Ends rest) : Tame rest := by
  obtain ⟨c, cs, rfl, hc⟩ := exists_cons_of_isName hw
  rw [List.cons_append] at h
  have := h.of_name hc
  rwa [dropWhile_run (isName_cons hw).2 hr] at this

end Tame

/-! ### Blanks and comments -/

theorem isPlain_of_isAsciiBlank {c : Char} (h : Text.isAsciiBlank c = true) :
    isPlain c = true := by
  simp only [Text.isAsciiBlank, Bool.or_eq_true, decide_eq_true_eq] at h
  rcases h with (((rfl | rfl) | rfl) | rfl) | rfl <;> decide

/-- Blanks and comments are skipped up to a tame text. -/
theorem Tame.skipTrivia {cs : List Char} (h : Tame cs) : Tame (skipTrivia cs) := by
  induction cs with
  | nil => exact .nil
  | cons c cs ih =>
      rw [Dsl.skipTrivia]
      split
      · rename_i hb
        exact ih (h.of_plain (isPlain_of_isAsciiBlank hb))
      · split
        · rename_i hc
          rw [Bool.and_eq_true, decide_eq_true_eq] at hc
          obtain ⟨rfl, -⟩ := hc
          exact h.of_comment
        · exact h

end Dsl

end Rulebook
