import Rulebook.Json.Reader
import Rulebook.Json.Writer
import Mathlib.Tactic.SplitIfs

/-!
# Rulebook — Proofs — Json — Strings

A JSON string reads back as the string it was written for, whatever follows it
(`stringText_writeString`).  Each character is written either as itself or as an escape that
stands for it (`stringRest_escapeChar`), and no code point of a character is half of a pair.
-/

namespace Rulebook.Json

theorem hexValue_hexDigit : ∀ n < 16, hexValue (hexDigit n) = some n := by decide

/-- The four digits of a control character stand for it. -/
theorem hexUnit_control {n : Nat} (h : n < 0x20) :
    hexUnit '0' '0' (hexDigit (n / 16)) (hexDigit n) = some n := by
  have low : hexDigit n = hexDigit (n % 16) := by simp [hexDigit]
  have zero : hexValue '0' = some 0 := by decide
  rw [low]
  simp only [hexUnit, zero, hexValue_hexDigit (n / 16) (by omega),
    hexValue_hexDigit (n % 16) (by omega)]
  simp only [Option.bind_eq_bind, Option.bind_some, Option.some.injEq]
  omega

/-- A character that is written as itself reads as itself. -/
theorem stringRest_plain {c : Char} {cs : List Char} (hq : c ≠ '"') (hb : c ≠ '\\')
    (hc : ¬ c.toNat < 0x20) :
    stringRest (c :: cs) = (stringRest cs).map fun (ns, r) => (c.toNat :: ns, r) := by
  rw [stringRest]
  · simp [hb, hc]
  all_goals simp_all

/-- What is written for a character reads as its code point. -/
theorem stringRest_escapeChar (c : Char) (cs : List Char) :
    stringRest (escapeChar c ++ cs) = (stringRest cs).map fun (ns, r) => (c.toNat :: ns, r) := by
  rw [escapeChar]
  -- the two-letter escapes come first; each is closed by running the reader on it
  split_ifs with hq hb hn hr ht hbs hff hc
  · subst hq; simp [stringRest, shortEscape]
  · subst hb; simp [stringRest, shortEscape]
  · subst hn; simp [stringRest, shortEscape]
  · subst hr; simp [stringRest, shortEscape]
  · subst ht; simp [stringRest, shortEscape]
  · subst hbs; simp [stringRest, shortEscape]
  · subst hff; simp [stringRest, shortEscape]
  · simp only [List.cons_append, List.nil_append, stringRest, hexUnit_control hc]
  · exact stringRest_plain hq hb hc

theorem stringRest_flatMap (cs rest : List Char) :
    stringRest (cs.flatMap escapeChar ++ '"' :: rest) = some (cs.map Char.toNat, rest) := by
  induction cs with
  | nil => simp [stringRest]
  | cons c cs ih =>
      rw [List.flatMap_cons, List.append_assoc, stringRest_escapeChar, ih]
      rfl

theorem loneUnit_toNat (c : Char) : loneUnit c.toNat = some c := by
  have h := c.valid
  have hn : ¬ (0xD800 ≤ c.toNat ∧ c.toNat < 0xE000) := by
    rcases h with h | h
    · intro hc
      exact absurd h (by show ¬ c.toNat < 0xD800; omega)
    · intro hc
      have : 0xDFFF < c.toNat := h.1
      omega
  simp [loneUnit, hn, Char.ofNat_toNat]

theorem characters_toNat (cs : List Char) : characters (cs.map Char.toNat) = some cs := by
  induction cs with
  | nil => rfl
  | cons c cs ih =>
      rw [List.map_cons]
      unfold characters
      simp only [loneUnit_toNat, ih, Option.map_some]

/-- **A JSON string reads back.** -/
theorem stringText_writeString (s : String) (rest : List Char) :
    stringText (s.toList.flatMap escapeChar ++ '"' :: rest) = some (some s, rest) := by
  simp [stringText, stringRest_flatMap, characters_toNat]

end Rulebook.Json
