import Rulebook.Dsl.Call
import Rulebook.Proofs.Dsl.Grammar
import Rulebook.Proofs.Text.Run

/-!
# Rulebook — Proofs — Dsl — Trivia

Skipping blanks and comments: what is skipped (`skipTrivia_spaces`, `skipTrivia_line`), where
skipping stops (`skipTrivia_solid`), and how the readers that skip first go on from there.
-/

namespace Rulebook.Dsl

open Grammar

/-- A character that is neither a blank nor the start of a comment. -/
def isSolid (c : Char) : Bool := !Text.isAsciiBlank c && c != '#'

/-- The characters that are not solid. -/
def triviaStarts : List Char := [' ', '\t', '\n', '\x0c', '\r', '#']

/-- Every character of a class is solid if none of the few others is in it. -/
theorem isSolid_of_class {inside : Char → Bool}
    (hs : triviaStarts.all (fun d => !inside d) = true) {c : Char} (h : inside c = true) :
    isSolid c = true := by
  have outside := Text.not_mem_of_class hs h
  simpa [isSolid, Text.isAsciiBlank, triviaStarts, and_assoc] using outside

theorem skipTrivia_solid {c : Char} (cs : List Char) (h : isSolid c = true) :
    skipTrivia (c :: cs) = c :: cs := by
  simp only [isSolid, Bool.and_eq_true, Bool.not_eq_true', bne_iff_ne, ne_eq] at h
  simp [skipTrivia, h.1, h.2]

theorem skipTrivia_blank {c : Char} (cs : List Char) (h : Text.isAsciiBlank c = true) :
    skipTrivia (c :: cs) = skipTrivia cs := by
  simp [skipTrivia, h]

theorem skipTrivia_space (cs : List Char) : skipTrivia (' ' :: cs) = skipTrivia cs :=
  skipTrivia_blank cs (by decide)

theorem skipTrivia_lineFeed (cs : List Char) : skipTrivia ('\n' :: cs) = skipTrivia cs :=
  skipTrivia_blank cs (by decide)

theorem skipTrivia_spaces (n : Nat) (cs : List Char) :
    skipTrivia (List.replicate n ' ' ++ cs) = skipTrivia cs := by
  induction n with
  | zero => rfl
  | succ n ih => rw [List.replicate_succ, List.cons_append, skipTrivia_space, ih]

mutual

/-- There is nothing more to skip behind what has been skipped. -/
theorem skipTrivia_skipTrivia : ∀ cs, skipTrivia (skipTrivia cs) = skipTrivia cs
  | [] => rfl
  | c :: cs => by
      rw [skipTrivia]
      split
      · exact skipTrivia_skipTrivia cs
      · rename_i hb
        split
        · exact skipTrivia_skipComment cs
        · rename_i hc
          rw [skipTrivia, if_neg hb, if_neg hc]

theorem skipTrivia_skipComment : ∀ cs, skipTrivia (skipComment cs) = skipComment cs
  | [] => by rw [skipComment, skipTrivia]
  | c :: cs => by
      rw [skipComment]
      split
      · exact skipTrivia_skipTrivia cs
      · exact skipTrivia_skipComment cs

end

/-! ### Comments -/

/-- Text that stays on its line. -/
def OnLine (body : List Char) : Prop := ∀ c ∈ body, c ≠ '\n' ∧ c ≠ '\r'

instance (body : List Char) : Decidable (OnLine body) :=
  List.decidableBAll (fun c => c ≠ '\n' ∧ c ≠ '\r') body

theorem lineCloses_append {body : List Char} (h : OnLine body) (cs : List Char) :
    lineCloses (body ++ '\n' :: cs) = true := by
  induction body with
  | nil => rfl
  | cons c body ih =>
      obtain ⟨hn, hr⟩ := h c List.mem_cons_self
      rw [List.cons_append, lineCloses.eq_def]
      simp only [hn, hr, if_false]
      exact ih fun d hd => h d (List.mem_cons_of_mem c hd)

theorem lineCloses_of_onLine {body : List Char} (h : OnLine body) : lineCloses body = true := by
  induction body with
  | nil => rfl
  | cons c body ih =>
      obtain ⟨hn, hr⟩ := h c List.mem_cons_self
      rw [lineCloses.eq_def]
      simp only [hn, hr, if_false]
      exact ih fun d hd => h d (List.mem_cons_of_mem c hd)

theorem skipComment_append {body : List Char} (h : OnLine body) (cs : List Char) :
    skipComment (body ++ '\n' :: cs) = skipTrivia cs := by
  induction body with
  | nil => simp [skipComment]
  | cons c body ih =>
      have hn := (h c List.mem_cons_self).1
      rw [List.cons_append, skipComment, if_neg hn]
      exact ih fun d hd => h d (List.mem_cons_of_mem c hd)

theorem skipComment_of_onLine {body : List Char} (h : OnLine body) : skipComment body = [] := by
  induction body with
  | nil => simp [skipComment]
  | cons c body ih =>
      have hn := (h c List.mem_cons_self).1
      rw [skipComment, if_neg hn]
      exact ih fun d hd => h d (List.mem_cons_of_mem c hd)

/-- A comment is skipped up to the next line. -/
theorem skipTrivia_line {body : List Char} (h : OnLine body) (cs : List Char) :
    skipTrivia ('#' :: (body ++ '\n' :: cs)) = skipTrivia cs := by
  have hb : Text.isAsciiBlank '#' = false := by decide
  simp [skipTrivia, hb, lineCloses_append h, skipComment_append h]

/-- A comment on the last line is skipped. -/
theorem skipTrivia_lastLine {body : List Char} (h : OnLine body) :
    skipTrivia ('#' :: body) = [] := by
  have hb : Text.isAsciiBlank '#' = false := by decide
  simp [skipTrivia, hb, lineCloses_of_onLine h, skipComment_of_onLine h]

/-! ### Readers that skip first -/

variable {α : Type} {cs rest : List Char}

theorem trivia_bind (f : Unit → Grammar α) (cs : List Char) :
    (trivia >>= f) cs = f () (skipTrivia cs) := rfl

theorem spaced_ok {c : Char} (h : skipTrivia cs = c :: rest) : spaced c cs = .ok () rest := by
  rw [spaced, trivia_bind, h, char_ok]

theorem refuses_spaced {c : Char} (h : ∀ r, skipTrivia cs ≠ c :: r) :
    (spaced c).Refuses cs := by
  obtain ⟨e, r, he, hc⟩ := refuses_char h
  exact ⟨e, r, he, hc⟩

theorem punctuation_ok {c : Char} (h : skipTrivia cs = c :: rest) :
    punctuation c cs = .ok () rest :=
  expectingChar_ok (commit_ok (spaced_ok h)) c

theorem argument_ok {p : Grammar α} {a : α} (h : p (skipTrivia cs) = .ok a rest) :
    argument p cs = .ok a rest := by
  rw [argument, trivia_bind]
  exact commit_ok h

end Rulebook.Dsl
