import Rulebook.Proofs.Lint.Comments
import Rulebook.Proofs.Lint.Selection

/-!
# Rulebook — Proofs — Lint — Coverage

The tokens of any text, whether or not it is a rule.  A text is scanned by skipping blanks and
taking the token that any other character starts (`Scanned`).  That needs no bound on the number of
tokens, and there is one outcome only, which is what is found within a bound that is no less than
the text (`scanned_piecesWithin`, `Scanned.unique`).

* `Scanned.covers`: every character is a blank or in a token, which may be a comment's.
* `tokens_cover`: the tokens are parts of the text, in order and disjoint, and only blanks and
  comments are outside of them.
-/

namespace Rulebook

open Dsl (OnLine LineEnds)

/-- The part of a text behind another part. -/
theorem Text.slice?_append (a b c : List Char) :
    slice? (a ++ (b ++ c)) (width a) (width a + width b) = some b := by
  have stop : isBoundary (a ++ (b ++ c)) (width a + width b) = true := by
    rw [← List.append_assoc, ← width_append]
    exact isBoundary_append _ _
  rw [slice?_eq (isBoundary_append _ _) stop (Nat.le_add_right _ _), dropBytes_append,
    Nat.add_sub_cancel_left, takeBytes_append]

namespace Lint

variable {c : Char} {cs rest text : List Char} {kind : TokenKind} {offset fuel : Nat}
  {ts us : List Token}

/-! ### One token -/

/-- A token of a comment is a mark and the line behind it, up to its end. -/
theorem exists_line_of_nextToken (h : nextToken c cs = (.comment, text, rest)) :
    ∃ body, text = '#' :: body ∧ OnLine body ∧ LineEnds rest := by
  obtain ⟨rfl, line⟩ : c = '#' ∧ Dsl.lineCloses cs = true := by
    simpa [TokenKind.startsAt] using startsAt_of_nextToken h
  obtain ⟨body, behind, rfl, onLine, ends⟩ := Dsl.exists_line line
  have next : nextToken '#' (body ++ behind) = (.comment, '#' :: body, behind) := by
    simp [nextToken, line, Dsl.splitLine_append onLine ends]
  rw [next] at h
  cases h
  exact ⟨body, rfl, onLine, ends⟩

/-! ### The whole text -/

/-- The tokens of a text whose first character has the given offset, comments among them: blanks
are skipped, and every other character starts a token behind which the scan goes on. -/
inductive Scanned : (offset : Nat) → List Char → List Token → Prop where
  | nil {offset : Nat} : Scanned offset [] []
  | blank {offset : Nat} {c : Char} {cs : List Char} {ts : List Token}
      (hb : Text.isBlank c = true) (t : Scanned (offset + c.utf8Size) cs ts) :
      Scanned offset (c :: cs) ts
  | token {offset : Nat} {c : Char} {cs text rest : List Char} {kind : TokenKind}
      {ts : List Token} (hb : Text.isBlank c = false)
      (next : nextToken c cs = (kind, text, rest))
      (t : Scanned (offset + Text.width text) rest ts) :
      Scanned offset (c :: cs) (⟨kind, text, offset⟩ :: ts)

/-- The whole text is scanned if the bound is no less than the text. -/
theorem scanned_piecesWithin (enough : cs.length < fuel) (offset : Nat) :
    Scanned offset cs (piecesWithin fuel offset cs) := by
  induction fuel generalizing cs offset with
  | zero => exact absurd enough (Nat.not_lt_zero _)
  | succ fuel ih =>
      -- blanks take no fuel, so that they are skipped by an induction of their own
      induction cs generalizing offset with
      | nil => exact .nil
      | cons c cs skip =>
          rw [List.length_cons] at enough
          cases hb : Text.isBlank c with
          | true =>
              rw [piecesWithin_blank hb]
              exact .blank hb (skip (by omega) _)
          | false =>
              obtain ⟨kind, text, rest, next⟩ : ∃ k t r, nextToken c cs = (k, t, r) :=
                ⟨_, _, _, rfl⟩
              have shorter := length_le_of_nextToken next
              rw [piecesWithin_token hb next]
              exact .token hb next (ih (by omega) _)

namespace Scanned

/-- A text is scanned in one way only. -/
theorem unique (h : Scanned offset cs ts) (h' : Scanned offset cs us) : ts = us := by
  induction h generalizing us with
  | nil =>
      cases h'
      rfl
  | blank hb t ih =>
      cases h' with
      | blank _ t' => exact ih t'
      | token hb' _ _ =>
          rw [hb] at hb'
          cases hb'
  | token hb next t ih =>
      cases h' with
      | blank hb' _ =>
          rw [hb] at hb'
          cases hb'
      | token _ next' t' =>
          cases next.symm.trans next'
          rw [ih t']

/-- Every token is the part of the text at its offset. -/
theorem exists_parts (h : Scanned offset cs ts) {t : Token} (ht : t ∈ ts) :
    ∃ front rest, cs = front ++ (t.text ++ rest) ∧ t.start = offset + Text.width front ∧
      t.text ≠ [] ∧
      (t.kind = .comment → ∃ body, t.text = '#' :: body ∧ OnLine body ∧ LineEnds rest) := by
  induction h with
  | nil => cases ht
  | @blank offset c cs ts hb _ ih =>
      obtain ⟨front, rest, rfl, hs, whole⟩ := ih ht
      exact ⟨c :: front, rest, rfl, by rw [hs, Text.width, Nat.add_assoc], whole⟩
  | @token offset c cs text rest kind ts hb next _ ih =>
      have tiles := tiles_of_nextToken next
      rcases List.mem_cons.mp ht with rfl | ht
      · obtain ⟨t, ht⟩ := exists_cons_of_nextToken next
        refine ⟨[], rest, tiles.symm, rfl, ht ▸ List.cons_ne_nil c t, ?_⟩
        rintro rfl
        exact exists_line_of_nextToken next
      · obtain ⟨front, behind, rfl, hs, whole⟩ := ih ht
        refine ⟨text ++ front, behind, by rw [← tiles, List.append_assoc], ?_, whole⟩
        rw [hs, Text.width_append, Nat.add_assoc]

/-- Tokens come in order, and none starts before the end of the one before it. -/
theorem apart (h : Scanned offset cs ts) :
    (∀ t ∈ ts, offset ≤ t.start) ∧ ts.Pairwise fun t u => t.stop ≤ u.start := by
  induction h with
  | nil => exact ⟨List.forall_mem_nil _, .nil⟩
  | blank hb _ ih => exact ⟨fun t ht => Nat.le_of_add_right_le (ih.1 t ht), ih.2⟩
  | token hb next _ ih =>
      exact ⟨List.forall_mem_cons.mpr
        ⟨Nat.le_refl _, fun t ht => Nat.le_of_add_right_le (ih.1 t ht)⟩, .cons ih.1 ih.2⟩

/-- **Every character is a blank or in a token.** -/
theorem covers (h : Scanned offset cs ts) {before after : List Char}
    (e : cs = before ++ c :: after) : Text.isBlank c = true ∨
      ∃ t ∈ ts, t.holds (offset + Text.width before) = true := by
  induction h generalizing before with
  | nil => simp at e
  | @blank offset d cs ts hb _ ih =>
      cases before with
      | nil =>
          cases e
          exact .inl hb
      | cons _ before =>
          cases e
          obtain blank | ⟨t, ht, inside⟩ := ih rfl
          · exact .inl blank
          · exact .inr ⟨t, ht, by rwa [Text.width, ← Nat.add_assoc]⟩
  | @token offset d cs text rest kind ts hb next _ ih =>
      obtain ⟨later, inside⟩ | ⟨front, rfl, behind⟩ :=
        mem_parts text ((tiles_of_nextToken next).trans e)
      · have shorter : Text.width before < Text.width text := by
          have := c.utf8Size_pos
          rw [inside, Text.width_append, Text.width]
          omega
        refine .inr ⟨_, List.mem_cons_self, ?_⟩
        simp only [Token.holds, Bool.and_eq_true, decide_eq_true_eq]
        exact ⟨Nat.le_add_right _ _, Nat.add_lt_add_left shorter _⟩
      · obtain blank | ⟨t, ht, inside⟩ := ih behind
        · exact .inl blank
        · refine .inr ⟨t, List.mem_cons_of_mem _ ht, ?_⟩
          rwa [Text.width_append, ← Nat.add_assoc]

end Scanned

/-! ### Tokens that are no comments -/

/-- The pieces of a text are scanned from it. -/
theorem scanned_pieces (text : List Char) : Scanned 0 text (pieces text) :=
  scanned_piecesWithin (Nat.lt_succ_self _) 0

/-- The tokens of a text are its pieces without the comments. -/
theorem mem_tokens_iff {t : Token} : t ∈ tokens text ↔ t ∈ pieces text ∧ t.kind ≠ .comment := by
  rw [tokens_eq_filter, List.mem_filter, decide_eq_true_eq]

/-- More fuel than there are characters changes nothing. -/
theorem tokensWithin_eq_tokens (enough : text.length < fuel) :
    tokensWithin fuel 0 text = tokens text := by
  rw [tokens_eq_filter, tokensWithin_eq_filter,
    (scanned_piecesWithin enough 0).unique (scanned_pieces text)]

/-- The tokens are in order and disjoint. -/
theorem pairwise_tokens (text : List Char) :
    (tokens text).Pairwise fun t u => t.stop ≤ u.start := by
  rw [tokens_eq_filter]
  exact (scanned_pieces text).apart.2.filter _

/-- A token is not empty, and it is the part of the text at its offset. -/
theorem slice?_of_mem_tokens {t : Token} (ht : t ∈ tokens text) :
    t.text ≠ [] ∧ Text.slice? text t.start t.stop = some t.text := by
  obtain ⟨front, rest, whole, hs, hne, -⟩ :=
    (scanned_pieces text).exists_parts (mem_tokens_iff.mp ht).1
  have here := Text.slice?_append front t.text rest
  rw [Nat.zero_add] at hs
  rw [← whole, ← hs] at here
  exact ⟨hne, here⟩

/-- A comment of a text: a mark and what follows it up to the end of its line. -/
def Token.IsComment (t : Token) (text : List Char) : Prop :=
  ∃ front body rest, text = front ++ ('#' :: body ++ rest) ∧ OnLine body ∧ LineEnds rest ∧
    t = ⟨.comment, '#' :: body, Text.width front⟩

/-- Neither of two tokens starts inside the other one. -/
def Token.Apart (t u : Token) : Prop := t.stop ≤ u.start ∨ u.stop ≤ t.start

/-- **Nothing of a text is lost**, whatever the text.  Its tokens are parts of it at their offsets,
none of them empty, in order and disjoint; and a character outside of all tokens is a blank, or in a
comment that no token touches.  The bound on the number of tokens is never reached. -/
theorem tokens_cover (text : List Char) :
    (∀ fuel, text.length < fuel → tokensWithin fuel 0 text = tokens text) ∧
      (∀ t ∈ tokens text, t.text ≠ [] ∧ Text.slice? text t.start t.stop = some t.text) ∧
      (tokens text).Pairwise (fun t u => t.stop ≤ u.start) ∧
      ∀ before c after, text = before ++ c :: after →
        (∀ t ∈ tokens text, t.holds (Text.width before) = false) → Text.isBlank c = true ∨
          ∃ note : Token, note.IsComment text ∧ note.holds (Text.width before) = true ∧
            ∀ t ∈ tokens text, t.Apart note := by
  refine ⟨fun _ => tokensWithin_eq_tokens, fun _ => slice?_of_mem_tokens, pairwise_tokens text, ?_⟩
  intro before c after e outside
  have scanned := scanned_pieces text
  obtain blank | ⟨note, hn, inside⟩ := scanned.covers e
  · exact .inl blank
  rw [Nat.zero_add] at inside
  have comment : note.kind = .comment := by
    by_contra other
    rw [outside note (mem_tokens_iff.mpr ⟨hn, other⟩)] at inside
    cases inside
  obtain ⟨front, rest, whole, hs, -, line⟩ := scanned.exists_parts hn
  obtain ⟨body, hbody, onLine, ends⟩ := line comment
  rw [Nat.zero_add] at hs
  refine .inr ⟨note, ⟨front, body, rest, hbody ▸ whole, onLine, ends, ?_⟩, inside, fun t ht => ?_⟩
  · rw [← comment, ← hbody, ← hs]
  · obtain ⟨ht, other⟩ := mem_tokens_iff.mp ht
    have symmetric : Std.Symm Token.Apart := ⟨fun _ _ => Or.symm⟩
    have apart : (pieces text).Pairwise Token.Apart := scanned.apart.2.imp Or.inl
    exact apart.forall ht hn fun same => other (same ▸ comment)

/-- A comment in front of both characters of the end of a line, a mark and a dollar that stand
alone, and a string literal that is not closed, with a backslash at its end. -/
theorem tokens_cover_malformed :
    let text := "é # c\r\n# \r$ \"d\\".toList
    tokens text = [⟨.other, ['é'], 0⟩, ⟨.other, ['#'], 8⟩, ⟨.other, ['$'], 11⟩,
        ⟨.string, ['"', 'd'], 13⟩, ⟨.other, ['\\'], 15⟩] ∧
      (∀ t ∈ tokens text, t.holds 5 = false) ∧
      ∃ note : Token, note.IsComment text ∧ note.holds 5 = true ∧
        ∀ t ∈ tokens text, t.Apart note := by
  intro text
  have outside : ∀ t ∈ tokens text, t.holds 5 = false := by decide +kernel
  obtain ⟨-, -, -, covered⟩ := tokens_cover text
  have comment := covered "é # ".toList 'c' "\r\n# \r$ \"d\\".toList rfl outside
  exact ⟨by decide +kernel, outside, comment.resolve_left (by decide)⟩

end Lint

end Rulebook
