import Rulebook.Json.Writer
import Rulebook.Proofs.Decimal.Digits
import Mathlib.Tactic.SplitIfs

/-!
# Rulebook — Proofs — Json — Line

The compact text of a value stands on one line: it has no control characters (`visible_write`).
-/

namespace Rulebook.Json

/-- No character is a control character. -/
def Visible (cs : List Char) : Prop := ∀ c ∈ cs, 0x20 ≤ c.toNat

instance (cs : List Char) : Decidable (Visible cs) :=
  List.decidableBAll (fun c : Char => 0x20 ≤ c.toNat) cs

theorem visible_nil : Visible [] := fun _ h => nomatch h

theorem Visible.cons {c : Char} {cs : List Char} (hc : 0x20 ≤ c.toNat) (h : Visible cs) :
    Visible (c :: cs) := by
  intro d hd
  rcases List.mem_cons.mp hd with rfl | hd
  · exact hc
  · exact h d hd

theorem Visible.append {as bs : List Char} (ha : Visible as) (hb : Visible bs) :
    Visible (as ++ bs) := by
  intro c hc
  rcases List.mem_append.mp hc with hc | hc
  · exact ha c hc
  · exact hb c hc

theorem visible_of_digits {cs : List Char} (h : ∀ c ∈ cs, c.isDigit = true) : Visible cs := by
  intro c hc
  have hd := h c hc
  simp only [Char.isDigit, Bool.and_eq_true, decide_eq_true_eq, ge_iff_le,
    UInt32.le_iff_toNat_le] at hd
  exact Nat.le_trans (by decide) hd.1

theorem visible_digitsOf (n : Nat) : Visible (Decimal.digitsOf n) :=
  visible_of_digits fun _ => Decimal.isDigit_of_mem_digitsOf

/-- A character as it is escaped is visible. -/
theorem visible_escapeChar (c : Char) : Visible (escapeChar c) := by
  have hex : ∀ n < 16, 0x20 ≤ (hexDigit n).toNat := by decide
  have digit (n : Nat) : 0x20 ≤ (hexDigit n).toNat := by
    have h : hexDigit n = hexDigit (n % 16) := by simp [hexDigit]
    rw [h]
    exact hex _ (Nat.mod_lt _ (by decide))
  rw [escapeChar]
  split_ifs with hq hb hn hr ht hbs hff hc
  · decide
  · decide
  · decide
  · decide
  · decide
  · decide
  · decide
  · exact .cons (by decide) (.cons (by decide) (.cons (by decide) (.cons (by decide)
      (.cons (digit _) (.cons (digit _) visible_nil)))))
  · exact .cons (Nat.le_of_not_lt hc) visible_nil

/-- A string is written visibly. -/
theorem visible_writeString (s : String) : Visible (writeString s) := by
  refine .cons (by decide) (.append ?_ (.cons (by decide) visible_nil))
  intro c hc
  obtain ⟨d, -, hd⟩ := List.mem_flatMap.mp hc
  exact visible_escapeChar d c hd

theorem visible_writeInt (n : Int) : Visible (writeInt n) := by
  refine .append ?_ (visible_digitsOf _)
  split
  · exact .cons (by decide) visible_nil
  · exact visible_nil

theorem visible_positional (d : Decimal) : Visible d.positional := by
  have digits := visible_digitsOf d.digits
  have zeros (n : Nat) : Visible (List.replicate n '0') := by
    intro c hc
    rw [List.eq_of_mem_replicate hc]
    decide
  simp only [Decimal.positional]
  split_ifs
  · exact .append (.append (.cons (by decide) (.cons (by decide) visible_nil)) (zeros _)) digits
  · exact .append (.append digits (zeros _)) (.cons (by decide) (.cons (by decide) visible_nil))
  · exact .append (fun c hc => digits c (List.mem_of_mem_take hc))
      (.cons (by decide) fun c hc => digits c (List.mem_of_mem_drop hc))

theorem visible_scientific (d : Decimal) : Visible d.scientific := by
  have digits := visible_digitsOf d.digits
  rw [Decimal.scientific]
  refine .append ?_ (.cons (by decide) (.cons ?_ (visible_digitsOf _)))
  · cases h : Decimal.digitsOf d.digits with
    | nil => exact visible_nil
    | cons c cs =>
        rw [h] at digits
        cases cs with
        | nil => exact digits
        | cons e cs =>
            exact .cons (digits c List.mem_cons_self)
              (.cons (by decide) fun f hf => digits f (List.mem_cons_of_mem c hf))
  · split <;> decide

/-- A floating-point number is written visibly. -/
theorem visible_writeFloat (x : Binary64) : Visible (writeFloat x) := by
  have sign : Visible x.sign := by
    rw [Binary64.sign]
    split
    · exact .cons (by decide) visible_nil
    · exact visible_nil
  rw [writeFloat]
  split
  · rw [Binary64.jsonText]
    split
    · exact sign.append (by decide)
    · refine sign.append ?_
      split
      · exact visible_positional _
      · exact visible_scientific _
  · decide

mutual

/-- **The compact text of a value has no control characters.** -/
theorem visible_write : ∀ j : Json, Visible (write j)
  | .null => by decide
  | .bool true => by decide
  | .bool false => by decide
  | .int n => visible_writeInt n
  | .float x => visible_writeFloat x
  | .string s => visible_writeString s
  | .array items => .cons (by decide) (.append (visible_writeItems items)
      (.cons (by decide) visible_nil))
  | .object members => .cons (by decide) (.append (visible_writeMembers members)
      (.cons (by decide) visible_nil))
  | .unreadable => by decide

/-- The items of an array are written visibly. -/
theorem visible_writeItems : ∀ js : List Json, Visible (writeItems js)
  | [] => visible_nil
  | [j] => visible_write j
  | j :: k :: rest =>
    .append (visible_write j) (.cons (by decide) (visible_writeItems (k :: rest)))

theorem visible_writeMembers : ∀ ms : List (String × Json), Visible (writeMembers ms)
  | [] => visible_nil
  | [(key, j)] => .append (visible_writeString key) (.cons (by decide) (visible_write j))
  | (key, j) :: m :: rest =>
    .append (visible_writeString key) (.cons (by decide)
      (.append (visible_write j) (.cons (by decide) (visible_writeMembers (m :: rest)))))

end

end Rulebook.Json
