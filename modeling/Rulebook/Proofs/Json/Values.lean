import Rulebook.Json.Canonical
import Rulebook.Proofs.Json.Floats
import Rulebook.Proofs.Json.Strings

/-!
# Rulebook — Proofs — Json — Values

Which JSON values a text can stand for (`Expressible`) and how deep their arrays and objects nest
(`nesting`).  A value without items or members reads back from its text.

* `canonicalize_of_canonical`: a canonical value is its own canonical form, so that a payload is
  made of its own value (`Payload.ofJson_value`).
-/

namespace Rulebook.Json

open Text (startsOutside_nil)

/-! ### Which values a text can stand for -/

mutual

/-- Integers in range, other numbers finite, nothing unreadable. -/
def Expressible : Json → Prop
  | .int n => inRange n = true
  | .float x => x.isFinite = true
  | .array items => ExpressibleAll items
  | .object members => ExpressibleMembers members
  | .unreadable => False
  | _ => True

/-- Every item is expressible. -/
def ExpressibleAll : List Json → Prop
  | [] => True
  | j :: js => Expressible j ∧ ExpressibleAll js

/-- Every member's value is expressible. -/
def ExpressibleMembers : List (String × Json) → Prop
  | [] => True
  | (_, j) :: rest => Expressible j ∧ ExpressibleMembers rest

end

mutual

/-- How deep arrays and objects nest in a value. -/
def nesting : Json → Nat
  | .array items => 1 + nestingAll items
  | .object members => 1 + nestingMembers members
  | _ => 0

/-- How deep arrays and objects nest in several values. -/
def nestingAll : List Json → Nat
  | [] => 0
  | j :: js => max (nesting j) (nestingAll js)

/-- How deep arrays and objects nest in the values of members. -/
def nestingMembers : List (String × Json) → Nat
  | [] => 0
  | (_, j) :: rest => max (nesting j) (nestingMembers rest)

end

mutual

/-- A canonical value can be written. -/
theorem expressible_of_canonical : ∀ {j : Json}, Canonical j → Expressible j
  | .null, _ | .bool _, _ | .string _, _ => trivial
  | .int _, h | .float _, h => h
  | .array _, h => expressibleAll_of_canonicalAll h
  | .object _, h => expressibleMembers_of_canonicalMembers h.2
  | .unreadable, h => h.elim

theorem expressibleAll_of_canonicalAll : ∀ {l : List Json}, CanonicalAll l → ExpressibleAll l
  | [], _ => trivial
  | _ :: _, h => ⟨expressible_of_canonical h.1, expressibleAll_of_canonicalAll h.2⟩

theorem expressibleMembers_of_canonicalMembers :
    ∀ {l : List (String × Json)}, CanonicalMembers l → ExpressibleMembers l
  | [], _ => trivial
  | (_, _) :: _, h => ⟨expressible_of_canonical h.1, expressibleMembers_of_canonicalMembers h.2⟩

end

mutual

/-- What can be written is readable. -/
theorem isReadable_of_expressible : ∀ {j : Json}, Expressible j → j.isReadable = true
  | .null, _ | .bool _, _ | .int _, _ | .float _, _ | .string _, _ => rfl
  | .array _, h => areReadable_of_expressibleAll h
  | .object _, h => areReadableMembers_of_expressibleMembers h
  | .unreadable, h => h.elim

theorem areReadable_of_expressibleAll : ∀ {l : List Json}, ExpressibleAll l → areReadable l = true
  | [], _ => rfl
  | _ :: _, h => by
      rw [areReadable, isReadable_of_expressible h.1, areReadable_of_expressibleAll h.2,
        Bool.true_and]

theorem areReadableMembers_of_expressibleMembers :
    ∀ {l : List (String × Json)}, ExpressibleMembers l → areReadableMembers l = true
  | [], _ => rfl
  | (_, _) :: _, h => by
      rw [areReadableMembers, isReadable_of_expressible h.1,
        areReadableMembers_of_expressibleMembers h.2, Bool.true_and]

end

/-! ### The start of a text -/

/-- What the text of a value can start with. -/
def isValueStart (c : Char) : Bool :=
  isNumberStart c || c = '"' || c = '[' || c = '\x7b' || c = 'n' || c = 't' || c = 'f'

/-- No value starts with a blank. -/
theorem isGap_of_isValueStart {c : Char} (h : isValueStart c = true) : isGap c = false := by
  cases hg : isGap c with
  | false => rfl
  | true =>
      simp only [isGap, Bool.or_eq_true, decide_eq_true_eq] at hg
      rcases hg with ((rfl | rfl) | rfl) | rfl <;> exact absurd h (by decide)

theorem skipGaps_cons {c : Char} {cs : List Char} (h : isGap c = false) :
    skipGaps (c :: cs) = c :: cs := by simp [skipGaps, h]

/-- A number starts like a value. -/
theorem exists_start_of_number {t : List Char} {j : Json} (h : number t = some (j, [])) :
    ∃ c cs, t = c :: cs ∧ isValueStart c = true := by
  obtain ⟨c, cs, e, hc⟩ := exists_numberStart_of_number h
  exact ⟨c, cs, e, by simp [isValueStart, hc]⟩

/-- The text of a value is not empty and starts with neither a blank nor a closing bracket. -/
theorem exists_start_of_write {j : Json} (h : Expressible j) :
    ∃ c cs, j.write = c :: cs ∧ isValueStart c = true := by
  cases j with
  | null => exact ⟨'n', _, rfl, rfl⟩
  | bool b => cases b <;> exact ⟨_, _, rfl, rfl⟩
  | int n =>
      have e := number_writeInt h startsOutside_nil
      rw [List.append_nil] at e
      exact exists_start_of_number e
  | float x =>
      have hx : x.isFinite = true := h
      have e := number_jsonText hx startsOutside_nil
      rw [List.append_nil] at e
      rw [write, writeFloat, if_pos hx]
      exact exists_start_of_number e
  | string s => exact ⟨'"', _, rfl, rfl⟩
  | array items => exact ⟨'[', _, rfl, rfl⟩
  | object members => exact ⟨'\x7b', _, rfl, rfl⟩
  | unreadable => exact h.elim

/-! ### Values -/

theorem objectOf_some (ms : List (String × Json)) : objectOf (ms.map some) = .object ms := by
  have e : (ms.map some).mapM id = some ms := by
    induction ms with
    | nil => rfl
    | cons m ms ih => simp [ih]
  rw [objectOf, e]

/-- A text that starts like a number is read as one. -/
theorem valueWith_number {nested : Reading Json} {fits : Bool} {t rest : List Char} {j : Json}
    (h : number t = some (j, rest)) : valueWith nested fits t = some (j, rest) := by
  obtain ⟨c, cs, rfl, hc⟩ := exists_numberStart_of_number h
  have hg : isGap c = false := isGap_of_isValueStart (by simp [isValueStart, hc])
  rw [valueWith, skipGaps_cons hg]
  split
  -- a number starts with none of the characters that the other values start with
  · rename_i e; cases e
  iterate 6 rename_i e; cases e; exact absurd hc (by decide)
  · rename_i e; cases e; exact h

/-- A word for a value is read back. -/
theorem valueWith_word {nested : Reading Json} {fits : Bool} {j : Json} (rest : List Char)
    (h : j = .null ∨ j = .bool true ∨ j = .bool false) :
    valueWith nested fits (write j ++ rest) = some (j, rest) := by
  rcases h with rfl | rfl | rfl <;> simp [valueWith, write, skipGaps_cons, isGap, keyword]

/-- A string is read back. -/
theorem valueWith_string {nested : Reading Json} {fits : Bool} (s : String) (rest : List Char) :
    valueWith nested fits (writeString s ++ rest) = some (.string s, rest) := by
  simp [valueWith, writeString, skipGaps_cons, isGap, stringText_writeString, stringOf]

/-! ### Canonical values -/

theorem find_eq_none_of_lt {k : String} {l : List (String × Json)} (h : ∀ e ∈ l, k < e.1) :
    KeyMap.find k l = none := by
  induction l with
  | nil => rfl
  | cons e l ih =>
      have hne : k ≠ e.1 := fun he => String.lt_irrefl k (by simpa [← he] using h e (by simp))
      rw [KeyMap.find, if_neg hne]
      exact ih fun e he => h e (List.mem_cons_of_mem _ he)

theorem place_eq_cons_of_lt {k : String} {v : Json} {l : List (String × Json)}
    (h : ∀ e ∈ l, k < e.1) : KeyMap.place k v l = (k, v) :: l := by
  cases l with
  | nil => rfl
  | cons e l => rw [KeyMap.place, if_pos (h e List.mem_cons_self)]

/-- Members that are in order stay as they are. -/
theorem sortMembers_of_pairwise {l : List (String × Json)}
    (h : l.Pairwise (fun a b => a.1 < b.1)) : sortMembers l = l := by
  induction l with
  | nil => rfl
  | cons e l ih =>
      obtain ⟨hlt, hl⟩ := List.pairwise_cons.1 h
      rw [sortMembers, ih hl, find_eq_none_of_lt hlt, place_eq_cons_of_lt hlt]

mutual

/-- A canonical value is its own canonical form. -/
theorem canonicalize_of_canonical : ∀ {j : Json}, Canonical j → canonicalize j = j
  | .null, _ | .bool _, _ | .string _, _ => rfl
  | .int _, h | .float _, h => if_pos h
  | .array _, h => congrArg array (canonicalizeAll_of_canonicalAll h)
  | .object _, h => by
      rw [canonicalize, canonicalizeMembers_of_canonicalMembers h.2, sortMembers_of_pairwise h.1]
  | .unreadable, h => h.elim

theorem canonicalizeAll_of_canonicalAll : ∀ {l : List Json}, CanonicalAll l →
    canonicalizeAll l = l
  | [], _ => rfl
  | _ :: _, h => by
      rw [canonicalizeAll, canonicalize_of_canonical h.1, canonicalizeAll_of_canonicalAll h.2]

theorem canonicalizeMembers_of_canonicalMembers : ∀ {l : List (String × Json)},
    CanonicalMembers l → canonicalizeMembers l = l
  | [], _ => rfl
  | (_, _) :: _, h => by
      rw [canonicalizeMembers, canonicalize_of_canonical h.1,
        canonicalizeMembers_of_canonicalMembers h.2]

end

end Rulebook.Json

namespace Rulebook.Payload

/-- A payload is made of its own value. -/
theorem ofJson_value (p : Payload) : ofJson p.value = p := by
  obtain ⟨j, h⟩ := p
  simp [ofJson, Json.canonicalize_of_canonical h]

end Rulebook.Payload
