import Rulebook.Proofs.Dsl.Continued

/-!
# Rulebook — Proofs — Lint — Heads

The first tokens of a text.  The linter skips what the grammar skips (`tokensWithin_skipTrivia`),
and more blanks than that, so that its first token is where the grammar reads its first lexeme
unless a blank beyond ASCII stands there.
-/

namespace Rulebook.Lint

variable {c : Char} {cs rest text : List Char} {kind : TokenKind} {fuel : Nat}

/-! ### What is skipped -/

theorem tokensWithin_blank (h : Text.isBlank c = true) (offset : Nat) (cs : List Char) :
    tokensWithin (fuel + 1) offset (c :: cs) =
      tokensWithin (fuel + 1) (offset + c.utf8Size) cs := by
  have width : Text.width (c :: cs.takeWhile Text.isBlank) =
      c.utf8Size + Text.width (cs.takeWhile Text.isBlank) := by simp [Text.width]
  rw [tokensWithin, tokensWithin, List.takeWhile_cons_of_pos h, List.dropWhile_cons_of_pos h, width,
    Nat.add_assoc]

/-- A token where no blank is. -/
theorem tokensWithin_token (hb : Text.isBlank c = false)
    (ht : nextToken c cs = (kind, text, rest)) (offset : Nat) :
    tokensWithin (fuel + 1) offset (c :: cs) =
      (if kind = .comment then tokensWithin fuel (offset + Text.width text) rest
      else ⟨kind, text, offset⟩ :: tokensWithin fuel (offset + Text.width text) rest) := by
  have here : ¬ Text.isBlank c = true := Bool.eq_false_iff.mp hb
  rw [tokensWithin, List.takeWhile_cons_of_neg here, List.dropWhile_cons_of_neg here]
  dsimp only
  rw [ht]
  rfl

/-- **The linter skips what the grammar skips.** -/
theorem tokensWithin_skipTrivia (h : cs.length < fuel) (offset : Nat) : ∃ fuel' offset',
    (Dsl.skipTrivia cs).length < fuel' ∧
      tokensWithin fuel offset cs = tokensWithin fuel' offset' (Dsl.skipTrivia cs) := by
  -- a comment is skipped in one step, so that the induction is on the fuel and the length
  induction hl : cs.length using Nat.strong_induction_on generalizing cs fuel offset with
  | _ len ih =>
      subst hl
      obtain _ | fuel := fuel
      · exact absurd h (Nat.not_lt_zero _)
      cases cs with
      | nil => exact ⟨fuel + 1, offset, Nat.succ_pos _, rfl⟩
      | cons c cs =>
          rw [List.length_cons] at h
          cases hb : Text.isAsciiBlank c with
          | true =>
              rw [tokensWithin_blank (Text.isBlank_of_isAsciiBlank hb), Dsl.skipTrivia_blank _ hb]
              exact ih _ (Nat.lt_succ_self _) (by omega) _ rfl
          | false =>
              by_cases mark : c = '#' ∧ Dsl.lineCloses cs = true
              · obtain ⟨rfl, line⟩ := mark
                obtain ⟨body, rest, rfl, hb, he⟩ := Dsl.exists_line line
                have token : nextToken '#' (body ++ rest) = (.comment, '#' :: body, rest) := by
                  simp [nextToken, line, Dsl.splitLine_append hb he]
                rw [Dsl.skipTrivia_ended hb he, tokensWithin_token (by decide) token, if_pos rfl]
                rw [List.length_append] at h
                have shorter : rest.length < ('#' :: (body ++ rest)).length := by
                  rw [List.length_cons, List.length_append]
                  omega
                exact ih _ shorter (by omega) _ rfl
              · have here : Dsl.skipTrivia (c :: cs) = c :: cs := by
                  rw [Dsl.skipTrivia, if_neg (by rw [hb]; decide), if_neg (by simpa using mark)]
                rw [here]
                exact ⟨fuel + 1, offset, by simpa using h, rfl⟩

/-- The first token of a text, where the grammar reads its first lexeme. -/
theorem exists_tokensWithin (h : cs.length < fuel) {t : List Char}
    (hs : Dsl.skipTrivia cs = c :: t) (hb : Text.isBlank c = false)
    (ht : nextToken c t = (kind, text, rest)) (hk : kind ≠ .comment) (offset : Nat) :
    ∃ start fuel' offset', t.length < fuel' ∧
      tokensWithin fuel offset cs = ⟨kind, text, start⟩ :: tokensWithin fuel' offset' rest := by
  obtain ⟨fuel', offset', enough, e⟩ := tokensWithin_skipTrivia h offset
  rw [hs] at enough e
  obtain _ | fuel' := fuel'
  · exact absurd enough (Nat.not_lt_zero _)
  · rw [tokensWithin_token hb ht, if_neg hk] at e
    exact ⟨_, _, _, Nat.lt_of_succ_lt_succ enough, e⟩

/-! ### Keywords -/

/-- A name is a token. -/
theorem nextToken_name (h : Text.isNameStart c = true) (cs : List Char) : nextToken c cs =
    (.word, c :: cs.takeWhile Text.isNamePart, cs.dropWhile Text.isNamePart) := by
  have few : c ∉ ['#', '$', '"', '-'] :=
    Text.not_mem_of_class (p := Text.isNameStart) (by decide) h
  simp only [List.mem_cons, List.not_mem_nil, or_false, not_or] at few
  obtain ⟨mark, dollar, quote, minus⟩ := few
  have digit : c.isDigit = false := Dsl.isDigit_of_isNameStart h
  have none : numberToken (c :: cs) = none := by
    rw [numberToken.eq_def]
    split
    · rename_i e
      exact absurd (List.cons.inj e).1 minus
    · simp [numberBody, digit]
  rw [nextToken, if_neg (by simp [mark]), if_neg (by simp [dollar]), if_neg quote, none]
  simp [h]

/-- A name at the start of a text is its first token. -/
theorem exists_tokens_name {w : List Char} (e : Dsl.skipTrivia cs = w ++ rest)
    (hw : Text.isName w = true) (hr : Dsl.Ends rest) : ∃ start fuel offset,
      rest.length < fuel ∧ tokens cs = ⟨.word, w, start⟩ :: tokensWithin fuel offset rest := by
  obtain ⟨c, t, rfl, hc⟩ := Dsl.exists_cons_of_isName hw
  have part : ∀ d ∈ t, Text.isNamePart d = true := fun d hd =>
    Dsl.isNamePart_of_isName hw d (List.mem_cons_of_mem c hd)
  have token := nextToken_name hc (t ++ rest)
  rw [Text.takeWhile_run part hr, Text.dropWhile_run part hr] at token
  have blank := Dsl.isBlank_of_isNamePart (Text.isNamePart_of_isNameStart hc)
  obtain ⟨start, fuel, offset, enough, h⟩ :=
    exists_tokensWithin (Nat.lt_succ_self cs.length) e blank token nofun 0
  have shorter : rest.length ≤ (t ++ rest).length := by simp
  exact ⟨start, fuel, offset, Nat.lt_of_le_of_lt shorter enough, h⟩

/-- **The first token is a keyword where the grammar reads one**, at the first lexeme. -/
theorem connective?_tokens {t : List Char} (hs : Dsl.skipTrivia cs = c :: t)
    (hb : Text.isBlank c = false) (hm : c ≠ '#') :
    (tokens cs).head?.bind Token.connective? =
      Connective.ofKeyword? (Dsl.headWord (c :: t)) := by
  obtain ⟨kind, text, rest, ht⟩ : ∃ k u v, nextToken c t = (k, u, v) := ⟨_, _, _, rfl⟩
  have hk : kind ≠ .comment := by
    rintro rfl
    have mark := startsAt_of_nextToken ht
    simp only [TokenKind.startsAt, Bool.and_eq_true, decide_eq_true_eq] at mark
    exact hm mark.1
  obtain ⟨start, fuel, offset, -, e⟩ :=
    exists_tokensWithin (Nat.lt_succ_self cs.length) hs hb ht hk 0
  rw [tokens, e]
  show Token.connective? ⟨kind, text, start⟩ = _
  cases hn : Text.isNameStart c with
  | true =>
      rw [nextToken_name hn] at ht
      cases ht
      rw [Dsl.headWord, List.takeWhile_cons_of_pos (Text.isNamePart_of_isNameStart hn)]
      rfl
  | false =>
      rw [Dsl.plain_of_start hn]
      refine if_neg fun word => ?_
      obtain rfl : kind = .word := word
      have name : Text.isNameStart c = true := startsAt_of_nextToken ht
      rw [hn] at name
      cases name

/-- Where the first token is a comparison symbol the grammar has come to that, or to a blank or a
mark that it does not skip. -/
theorem start_of_comparison {offset : Nat} (h : cs.length < fuel) {t : Token}
    (ht : (tokensWithin fuel offset cs).head? = some t) (hk : t.kind = .comparison) :
    ∃ c u, Dsl.skipTrivia cs = c :: u ∧
      (Text.isBlank c = true ∨ ['#', '>', '<', '=', '!'].contains c = true) := by
  obtain ⟨fuel', offset', enough, e⟩ := tokensWithin_skipTrivia h offset
  rw [e] at ht
  obtain _ | fuel' := fuel'
  · exact absurd enough (Nat.not_lt_zero _)
  cases hs : Dsl.skipTrivia cs with
  | nil =>
      rw [hs] at ht
      cases ht
  | cons c u =>
      refine ⟨c, u, rfl, ?_⟩
      cases hb : Text.isBlank c with
      | true => exact .inl rfl
      | false =>
          obtain ⟨kind, text, rest, hn⟩ : ∃ k v w, nextToken c u = (k, v, w) := ⟨_, _, _, rfl⟩
          have start := startsAt_of_nextToken hn
          rw [hs, tokensWithin_token hb hn] at ht
          split at ht
          · rename_i comment
            subst comment
            simp only [TokenKind.startsAt, Bool.and_eq_true, decide_eq_true_eq] at start
            exact .inr (by rw [start.1]; decide)
          · cases ht
            obtain rfl : kind = .comparison := hk
            exact .inr (by rw [List.contains_cons]; exact Bool.or_eq_true_iff.mpr (.inr start))

end Rulebook.Lint
