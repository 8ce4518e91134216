import Rulebook.Proofs.Dsl.Expression

/-!
# Rulebook — Proofs — Dsl — Parts

What the text of an atom is put together from: names, literals and symbols, with a few characters
between them (`joints`).  A property that all of these have, and that passes from two texts to the
text with a joint between them, is one of the text of every atom that passes the check
(`Composes.atom`).
-/

namespace Rulebook.Dsl

/-- What stands between two words of an atom, or behind its last one. -/
def joints : List (List Char) := [[' '], [',', ' '], [' ', '=', ' '], ['('], [')']]

/-- The property is one of the words of an atom, and passes to texts joined from them. -/
structure Composes (P : List Char → Prop) : Prop where
  nil : P []
  name : ∀ {s : String}, isName s = true → P s.toList
  reference : ∀ {s : String}, isName s = true → P (referenceText s)
  symbol : ∀ c : Comparison, P c.symbol.toList
  digitsOf : ∀ n : Nat, P (Decimal.digitsOf n)
  quote : ∀ s : List Char, P (Text.quote s)
  literal : ∀ {v : Literal}, v.check = .ok () → P v.render
  join : ∀ {a g b : List Char}, P a → g ∈ joints → P b → P (a ++ (g ++ b))

namespace Composes

variable {P : List Char → Prop}

theorem commaSeparated (hP : Composes P) {ts : List (List Char)} (h : ∀ t ∈ ts, P t) :
    P (commaSeparated ts) := by
  induction ts with
  | nil => exact hP.nil
  | cons t ts ih =>
      obtain ⟨ht, hts⟩ := List.forall_mem_cons.mp h
      cases ts with
      | nil => exact ht
      | cons u us => exact hP.join ht (g := [',', ' ']) (by decide) (ih hts)

theorem call (hP : Composes P) {name : String} (hn : isName name = true)
    {args : List (List Char)} (h : P (Rulebook.commaSeparated args)) : P (callText name args) :=
  hP.join (hP.name hn) (g := ['(']) (by decide)
    (hP.join h (g := [')']) (by decide) hP.nil)

/-- A call with a name of its own form. -/
theorem reserved (hP : Composes P) {name : String} (hn : name ∈ reservedCalls)
    {args : List (List Char)} (h : ∀ t ∈ args, P t) : P (callText name args) :=
  hP.call (isName_of_mem_reservedCalls name hn).1 (hP.commaSeparated h)

theorem condition (hP : Composes P) {c : Condition} (h : (Atom.condition c).check = .ok ()) :
    P c.render := by
  obtain ⟨hf, hv⟩ := Atom.check_condition h
  have field : P (fieldText c.field) := by
    rw [fieldText]
    split
    · exact hP.reference hf
    · exact hP.name hf
  have value : P (valueText c) := by
    obtain ⟨_, _, v, kind⟩ := c
    cases kind with
    | literal => exact hP.literal hv
    | fieldReference =>
        obtain ⟨s, rfl, hs⟩ := exists_field_of_checkReference hv
        exact hP.reference hs
  have e : c.render = fieldText c.field ++ ([' '] ++ (c.comparison.symbol.toList ++
      ([' '] ++ valueText c))) := by simpa using render_condition c []
  rw [e]
  exact hP.join field (by decide) (hP.join (hP.symbol c.comparison) (by decide) value)

theorem argument (hP : Composes P) {a : Argument} (h : a.value.checkOperand a.kind = .ok ()) :
    P a.render := by
  obtain ⟨v, kind⟩ := a
  cases kind with
  | literal => exact hP.literal h
  | fieldReference =>
      obtain ⟨s, rfl, hs⟩ := exists_field_of_checkReference h
      rw [Argument.render]
      dsimp only [Literal.fieldName]
      split
      · exact hP.reference hs
      · exact hP.name hs

/-- **The text of an atom that passes the check has the property.** -/
theorem atom (hP : Composes P) {a : Atom} (h : a.check = .ok ()) : P a.render := by
  have one {t : List Char} (ht : P t) : ∀ u ∈ [t], P u := List.forall_mem_singleton.mpr ht
  have two {t u : List Char} (ht : P t) (hu : P u) : ∀ w ∈ [t, u], P w :=
    List.forall_mem_cons.mpr ⟨ht, one hu⟩
  cases a with
  | condition c => exact hP.condition h
  | uniqueBy array key =>
      exact hP.reserved (by decide) (two (hP.name (Atom.check_uniqueBy h)) (hP.quote _))
  | length bound array limit =>
      exact hP.reserved (by cases bound <;> decide)
        (two (hP.name (Atom.check_length h)) (hP.digitsOf _))
  | call name args =>
      obtain ⟨hn, -, hargs⟩ := Atom.check_call h
      refine hP.call hn (hP.commaSeparated fun t ht => ?_)
      obtain ⟨a, ha, rfl⟩ := List.mem_map.mp ht
      exact hP.argument (hargs a ha)
  | contextual source => exact hP.reserved (by decide) (one (hP.quote _))
  | expression source => exact hP.reserved (by decide) (one (hP.quote _))
  | template id params =>
      refine hP.reserved (by decide) (List.forall_mem_cons.mpr ⟨hP.quote _, fun t ht => ?_⟩)
      obtain ⟨e, he, rfl⟩ := List.mem_map.mp ht
      obtain ⟨hk, hv⟩ := Atom.check_template h e he
      rw [List.append_assoc]
      exact hP.join (hP.name hk) (by decide) (hP.literal hv)
  | custom name payload => exact hP.reserved (by decide) (two (hP.quote _) (hP.quote _))

end Composes

end Rulebook.Dsl
