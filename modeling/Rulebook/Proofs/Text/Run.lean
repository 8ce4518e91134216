/-!
# Rulebook — Proofs — Text — Run

The longest run of characters of a class at the start of a text, when the text is given as a run
and what follows it; and which characters are not in a class, or no backslash.
-/

namespace Rulebook.Text

/-- The text does not start with a character of the class. -/
def StartsOutside (p : Char → Bool) (cs : List Char) : Prop := ∀ c ∈ cs.head?, p c = false

variable {p q : Char → Bool} {run rest : List Char}

theorem startsOutside_nil : StartsOutside p [] := by simp [StartsOutside]

theorem startsOutside_cons {c : Char} {cs : List Char} (h : p c = false) :
    StartsOutside p (c :: cs) := by simpa [StartsOutside] using h

theorem StartsOutside.mono (h : StartsOutside p rest) (hq : ∀ c, q c = true → p c = true) :
    StartsOutside q rest := by
  intro c hc
  have hp := h c hc
  cases e : q c with
  | false => rfl
  | true => rw [hq c e] at hp; cases hp

theorem takeWhile_of_startsOutside (h : StartsOutside p rest) : rest.takeWhile p = [] := by
  cases rest with
  | nil => rfl
  | cons c cs => simp [h c (by simp)]

theorem dropWhile_of_startsOutside (h : StartsOutside p rest) : rest.dropWhile p = rest := by
  cases rest with
  | nil => rfl
  | cons c cs => simp [h c (by simp)]

theorem takeWhile_run (hr : ∀ c ∈ run, p c = true) (h : StartsOutside p rest) :
    (run ++ rest).takeWhile p = run := by
  rw [List.takeWhile_append_of_pos hr, takeWhile_of_startsOutside h, List.append_nil]

theorem dropWhile_run (hr : ∀ c ∈ run, p c = true) (h : StartsOutside p rest) :
    (run ++ rest).dropWhile p = rest := by
  rw [List.dropWhile_append_of_pos hr, dropWhile_of_startsOutside h]

theorem takeWhile_append (cs : List Char) (h : StartsOutside p rest) :
    (cs ++ rest).takeWhile p = cs.takeWhile p := by
  induction cs with
  | nil => exact takeWhile_of_startsOutside h
  | cons c cs ih => rw [List.cons_append, List.takeWhile_cons, List.takeWhile_cons, ih]

theorem dropWhile_append (cs : List Char) (h : StartsOutside p rest) :
    (cs ++ rest).dropWhile p = cs.dropWhile p ++ rest := by
  induction cs with
  | nil => exact dropWhile_of_startsOutside h
  | cons c cs ih =>
      rw [List.cons_append, List.dropWhile_cons, List.dropWhile_cons, ih]
      split <;> rfl

/-- A run at the start of a part of a text ends in the part if what follows goes on with no
character of the class. -/
theorem exists_append_of_run {part tail : List Char} (hr : ∀ c ∈ run, p c = true)
    (h : StartsOutside p tail) (e : part ++ tail = run ++ rest) :
    ∃ m, part = run ++ m ∧ rest = m ++ tail := by
  obtain ⟨m, rfl, rfl⟩ | ⟨m, rfl, rfl⟩ := List.append_eq_append_iff.mp e
  · cases m with
    | nil => exact ⟨[], by simp, rfl⟩
    | cons c m =>
        have outside := h c rfl
        rw [hr c (by simp)] at outside
        cases outside
  · exact ⟨m, rfl, rfl⟩

theorem startsOutside_of_takeWhile (h : rest.takeWhile p = []) : StartsOutside p rest := by
  intro c hc
  cases rest with
  | nil => cases hc
  | cons d t =>
      cases hc
      cases e : p c with
      | false => rfl
      | true => rw [List.takeWhile_cons_of_pos e] at h; cases h

theorem startsOutside_dropWhile (p : Char → Bool) (cs : List Char) :
    StartsOutside p (cs.dropWhile p) := by
  induction cs with
  | nil => exact startsOutside_nil
  | cons c cs ih =>
      rw [List.dropWhile_cons]
      split
      · exact ih
      · rename_i hc
        exact startsOutside_cons (Bool.eq_false_iff.mpr hc)

/-- None of a few characters is in a class if the class has none of them. -/
theorem not_mem_of_class {few : List Char} {c : Char} (hs : few.all (fun d => !p d) = true)
    (h : p c = true) : c ∉ few := by
  intro hc
  have outside := List.all_eq_true.mp hs c hc
  rw [h] at outside
  cases outside

/-- A character that is neither a backslash at the end of a text nor one in front of another
character is no backslash. -/
theorem ne_backslash {c : Char} {cs : List Char} (last : c = '\\' → cs = [] → False)
    (escape : ∀ d ds, c = '\\' → cs = d :: ds → False) : c ≠ '\\' := by
  rintro rfl
  cases cs with
  | nil => exact last rfl rfl
  | cons d ds => exact escape d ds rfl rfl

end Rulebook.Text
