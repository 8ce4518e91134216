import Rulebook.Proofs.Dsl.Padding
import Rulebook.Proofs.Lint.Agreement

/-!
# Rulebook — Proofs — Dsl — Continued

A text with something behind it.  Where the text closes its parentheses and does not end in a
comment, its lexemes are still the same (`padded_append`), so that an operand that goes on to the
end of a text is read in front of any text that begins with a blank or a closing parenthesis
(`unary_append`).  Behind a comment what follows has to begin with the end of the line.
-/

namespace Rulebook.Dsl

open Grammar

variable {more cs ds body : List Char} {n : Nat}

/-! ### Comments at the end -/

/-- The text is not in a comment at its end, or what follows it ends that comment. -/
def Continues (more cs : List Char) : Prop :=
  LineEnds more ∨ notes cs = [] ∨ notes (cs ++ [')']) = notes cs

theorem Continues.of_append {part : List Char} (h : Continues more (part ++ cs))
    (hp : Scans part []) : Continues more cs := by
  rwa [Continues, List.append_assoc, hp cs, hp (cs ++ [')'])] at h

/-- A line that closes is a comment's text up to the end of the line. -/
theorem exists_line (h : lineCloses cs = true) :
    ∃ body rest, cs = body ++ rest ∧ OnLine body ∧ LineEnds rest := by
  induction cs with
  | nil => exact ⟨[], [], rfl, nofun, .inl rfl⟩
  | cons c cs ih =>
      rw [lineCloses.eq_def] at h
      dsimp only at h
      split at h
      · subst c
        exact ⟨[], _, rfl, nofun, .inr ⟨cs, .inl rfl⟩⟩
      · split at h
        · subst c
          split at h
          · exact ⟨[], _, rfl, nofun, .inr ⟨_, .inr rfl⟩⟩
          · cases h
        · obtain ⟨body, rest, rfl, hb, hr⟩ := ih h
          exact ⟨c :: body, rest, rfl, List.forall_mem_cons.mpr ⟨⟨‹_›, ‹_›⟩, hb⟩, hr⟩

/-- The first comment of a text is the line behind its mark, whatever stands behind the line. -/
theorem exists_notes_line (h : OnLine body) (hc : LineEnds cs) (hne : cs ≠ []) :
    ∃ line, ∀ tail, notes ('#' :: (body ++ (cs ++ tail))) = line :: notes (cs ++ tail) := by
  obtain rfl | ⟨t, rfl | rfl⟩ := hc
  · exact absurd rfl hne
  · refine ⟨body, fun tail => ?_⟩
    rw [List.cons_append, notes_line h.not_mem, notes_other (by decide) (by decide)]
  · refine ⟨body ++ ['\r'], fun tail => ?_⟩
    have line : '\n' ∉ body ++ ['\r'] := by simp [h.not_mem]
    have e : '#' :: (body ++ ('\r' :: '\n' :: t ++ tail)) =
        '#' :: (body ++ ['\r'] ++ '\n' :: (t ++ tail)) := by simp
    rw [e, notes_line line, List.cons_append, List.cons_append,
      notes_other (by decide) (by decide), notes_other (by decide) (by decide)]

/-- What continues a text continues what stands behind its first comment. -/
theorem Continues.of_comment (h : Continues more ('#' :: (body ++ cs))) (hb : OnLine body)
    (hc : LineEnds cs) : Continues more cs ∧ LineEnds (cs ++ more) := by
  by_cases hne : cs = []
  · subst hne
    have last : notes ('#' :: (body ++ [])) = [body] := by
      rw [List.append_nil, notes_lastLine hb.not_mem]
    have longer : notes ('#' :: (body ++ []) ++ [')']) = [body ++ [')']] := by
      rw [List.append_nil, List.cons_append]
      exact notes_lastLine (by simp [hb.not_mem])
    rw [Continues, last, longer] at h
    obtain h | h | h := h
    · exact ⟨.inl h, h⟩
    · cases h
    · simp at h
  · have ends : LineEnds (cs ++ more) := by
      obtain rfl | ⟨t, rfl | rfl⟩ := hc
      · exact absurd rfl hne
      · exact .inr ⟨_, .inl rfl⟩
      · exact .inr ⟨_, .inr rfl⟩
    obtain ⟨line, hl⟩ := exists_notes_line hb hc hne
    have here := hl []
    rw [List.append_nil] at here
    refine ⟨?_, ends⟩
    rw [Continues, List.cons_append, List.append_assoc, here, hl [')']] at h
    obtain h | h | h := h
    · exact .inl h
    · cases h
    · exact .inr (.inr (List.cons.inj h).2)

/-! ### The same lexemes -/

/-- A blank is no mark and no quote. -/
theorem scans_blank {c : Char} (h : Text.isBlank c = true) : Scans [c] [] := by
  have few : c ∉ ['"', '#'] := Text.not_mem_of_class (p := Text.isBlank) (by decide) h
  simp only [List.mem_cons, List.not_mem_nil, or_false, not_or] at few
  exact .quiet _ (List.forall_mem_singleton.mpr few)

/-- **A text keeps its lexemes when something follows it.** -/
theorem padded_append (h : Lint.Closes n cs) (hm : Continues more cs) :
    Padded more cs (cs ++ more) := by
  -- tokens are longer than the steps of `Closes`, so that the induction is on the length
  induction hl : cs.length using Nat.strong_induction_on generalizing n cs with
  | _ len ih =>
      subst hl
      cases cs with
      | nil => exact .done
      | cons c cs =>
          cases hb : Text.isBlank c with
          | true =>
              have closes := (h.of_blank hb).2
              exact .blank hb (ih _ (by simp) closes (hm.of_append (scans_blank hb)) rfl)
          | false =>
              obtain ⟨kind, text, rest, ht⟩ : ∃ k t r, Lint.nextToken c cs = (k, t, r) :=
                ⟨_, _, _, rfl⟩
              by_cases hk : kind = .comment
              · subst hk
                obtain ⟨rfl, line⟩ : c = '#' ∧ lineCloses cs = true := by
                  simpa [Lint.TokenKind.startsAt] using Lint.startsAt_of_nextToken ht
                obtain ⟨body, behind, rfl, hb, he⟩ := exists_line line
                obtain ⟨hm, ends⟩ := hm.of_comment hb he
                have shorter : behind.length < ('#' :: (body ++ behind)).length := by
                  rw [List.length_cons, List.length_append]
                  omega
                have padded := ih _ shorter (closes_of_comment hb he h) hm rfl
                have whole : Padded more _ ('#' :: (body ++ [] ++ (behind ++ more))) :=
                  .comment (by simpa using hb) ⟨[], nofun, .inl rfl⟩ he ends padded
                simpa using whole
              · obtain ⟨l, m, rfl, -, e, hs, -, closes⟩ :=
                  h.lexeme (Text.isAsciiBlank_of_isBlank hb) ht hk
                obtain ⟨d, u, hd, -⟩ := hs.exists_cons
                have shorter : rest.length < (c :: cs).length := by
                  rw [← e, hd, List.length_append, List.length_cons]
                  omega
                rw [← e] at hm
                have padded := ih _ shorter closes (hm.of_append hs.scans) rfl
                rw [← e, List.append_assoc, e]
                exact .token hb ht hk padded

/-! ### Operands at the end of a text -/

/-- A text that is an operand closes its parentheses. -/
theorem closes_of_unary {k : Nat} {r : Rule} {rest : List Char} (h : unary k cs = .ok r rest)
    (hr : skipTrivia rest = []) : Lint.Closes 0 cs := by
  have cut : Cut cs 0 (skipTrivia rest) := .trivia ((keeps_unary k 0 cs r rest .whole h).1)
  rw [hr] at cut
  exact Lint.closes_of_cut cut .nil

/-- There is no operand at the end of a text. -/
theorem skipTrivia_ne_of_unary {k : Nat} {r : Rule} {rest : List Char}
    (h : unary k cs = .ok r rest) : skipTrivia cs ≠ [] := by
  intro e
  obtain ⟨f, t, hf, -⟩ : Refuses (unary k) cs := by
    rw [unary_eq]
    exact refuses_operandWith_nil e
  rw [h] at hf
  cases hf

/-- **An operand is read in front of any text** that starts behind it. -/
theorem unary_append {k : Nat} {r : Rule} {rest : List Char} (h : unary k cs = .ok r rest)
    (hr : skipTrivia rest = []) (hc : Continues more cs) (hm : Lint.Breaks more) :
    ∃ rest', unary k (cs ++ more) = .ok r rest' ∧ skipTrivia rest' = skipTrivia more := by
  have closes := closes_of_unary h hr
  have facing : Facing (skipTrivia more) 0 cs (cs ++ more) :=
    ⟨(padded_append closes hc).parallel hm closes, skipTrivia_ne_of_unary h⟩
  have level : ¬k < k := Nat.lt_irrefl k
  obtain ⟨rest', hr', hs⟩ | ⟨deep, -⟩ := facing.unary level h
  · exact ⟨rest', hr', hs.tail_of_nil hr⟩
  · exact deep.elim

end Rulebook.Dsl
