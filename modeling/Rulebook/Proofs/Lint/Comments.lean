import Rulebook.Proofs.Dsl.Skipped
import Rulebook.Proofs.Lint.Tokenized
import Rulebook.Proofs.Lint.Trimming

/-!
# Rulebook — Proofs — Lint — Comments

The comments of an accepted text, seen by three readers: the grammar, which skips them between its
lexemes, the search for records, which goes by quotes and marks only, and the linter, which drops
their tokens.  They see the same comments at the same places (`comments_agree`).  A mark starts a
comment unless it stands in a string literal or in another comment.
-/

namespace Rulebook.Lint

open Dsl (Comment Lexeme LineEnds OnLine lineComments)

variable {n fuel offset : Nat} {cs : List Char} {ts : List Token}

/-! ### The tokens that are dropped -/

/-- The tokens of a part of a text, comments among them. -/
def piecesWithin : (fuel : Nat) → (offset : Nat) → List Char → List Token
  | 0, _, _ => []
  | fuel + 1, offset, cs =>
    let blanks := cs.takeWhile Text.isBlank
    match cs.dropWhile Text.isBlank with
    | [] => []
    | c :: rest =>
      let start := offset + Text.width blanks
      let (kind, text, rest) := nextToken c rest
      ⟨kind, text, start⟩ :: piecesWithin fuel (start + Text.width text) rest

/-- The linter goes on with those that are no comments. -/
theorem tokensWithin_eq_filter (fuel offset : Nat) (cs : List Char) :
    tokensWithin fuel offset cs =
      (piecesWithin fuel offset cs).filter fun t => t.kind ≠ .comment := by
  induction fuel generalizing offset cs with
  | zero => rfl
  | succ fuel ih =>
      rw [tokensWithin, piecesWithin]
      cases cs.dropWhile Text.isBlank with
      | nil => rfl
      | cons c rest =>
          dsimp only
          rw [ih, List.filter_cons]
          by_cases hk : (nextToken c rest).1 = .comment <;> simp [hk]

/-- All tokens of a text, comments among them. -/
def pieces (text : List Char) : List Token := piecesWithin (text.length + 1) 0 text

/-- The tokens of a text are its pieces without the comments. -/
theorem tokens_eq_filter (text : List Char) :
    tokens text = (pieces text).filter fun t => t.kind ≠ .comment :=
  tokensWithin_eq_filter _ _ _

theorem piecesWithin_blank {c : Char} (h : Text.isBlank c = true) (offset : Nat) (cs : List Char) :
    piecesWithin (fuel + 1) offset (c :: cs) =
      piecesWithin (fuel + 1) (offset + c.utf8Size) cs := by
  have width : Text.width (c :: cs.takeWhile Text.isBlank) =
      c.utf8Size + Text.width (cs.takeWhile Text.isBlank) := by simp [Text.width]
  rw [piecesWithin, piecesWithin, List.takeWhile_cons_of_pos h, List.dropWhile_cons_of_pos h, width,
    Nat.add_assoc]

/-- The first piece behind blanks is the next token. -/
theorem piecesWithin_token {c : Char} {kind : TokenKind} {text rest : List Char}
    (hb : Text.isBlank c = false) (ht : nextToken c cs = (kind, text, rest)) (offset : Nat) :
    piecesWithin (fuel + 1) offset (c :: cs) =
      ⟨kind, text, offset⟩ :: piecesWithin fuel (offset + Text.width text) rest := by
  have here : ¬ Text.isBlank c = true := Bool.eq_false_iff.mp hb
  rw [piecesWithin, List.takeWhile_cons_of_neg here, List.dropWhile_cons_of_neg here]
  dsimp only
  rw [ht]
  rfl

/-- The comment of a comment's token. -/
def Token.comment (t : Token) : Comment := ⟨t.text.tail, t.start⟩

/-- The comments that the linter drops. -/
def droppedWithin (fuel offset : Nat) (cs : List Char) : List Comment :=
  ((piecesWithin fuel offset cs).filter fun t => t.kind = .comment).map Token.comment

/-- **The comments that the linter drops are those that are found.** -/
theorem Closes.dropped (h : Closes n cs) (enough : cs.length < fuel) (offset : Nat) :
    droppedWithin fuel offset cs = lineComments offset cs := by
  refine h.walk (motive := fun n fuel offset cs =>
    droppedWithin fuel offset cs = lineComments offset cs) ?_ ?_ ?_ ?_ enough offset
  · exact fun fuel offset => rfl
  · intro n fuel offset c cs hb ih
    rw [droppedWithin, piecesWithin_blank (Text.isBlank_of_isAsciiBlank hb),
      Dsl.lineComments_blank hb]
    exact ih
  · intro n fuel offset body cs onLine ends next ih
    rw [droppedWithin, piecesWithin_token (by decide) next, Dsl.lineComments_ended onLine ends, ← ih]
    rfl
  · intro n m fuel offset l c ds cs hs hn e hb hk next ih
    rw [droppedWithin, piecesWithin_token hb next, ← e, Dsl.lineComments_lexeme hs, ← ih,
      List.filter_cons_of_neg (by simpa using hk)]
    rfl

/-! ### Marks -/

/-- The comments behind a place do not start before it. -/
theorem Tokenized.le_offset (h : Tokenized n offset cs ts) :
    ∀ c ∈ lineComments offset cs, offset ≤ c.offset := by
  induction h with
  | nil => exact List.forall_mem_nil _
  | blank hb t ih =>
      rw [Dsl.lineComments_blank hb]
      exact fun c hc => Nat.le_of_add_right_le (ih c hc)
  | comment hb he t ih =>
      rw [Dsl.lineComments_ended hb he]
      exact List.forall_mem_cons.mpr
        ⟨Nat.le_refl _, fun c hc => Nat.le_of_add_right_le (ih c hc)⟩
  | token hs hn t ih =>
      rw [Dsl.lineComments_lexeme hs]
      exact fun c hc => Nat.le_of_add_right_le (ih c hc)

/-- A character of a text is in its first part or behind that. -/
theorem mem_parts (part : List Char) {pre post : List Char} {c : Char}
    (e : part ++ cs = pre ++ c :: post) :
    (∃ later, part = pre ++ c :: later) ∨ ∃ front, pre = part ++ front ∧ cs = front ++ c :: post := by
  obtain ⟨front, hp, hc⟩ | ⟨later, hp, hc⟩ := List.append_eq_append_iff.mp e
  · exact .inr ⟨front, hp, hc⟩
  · cases later with
    | nil => exact .inr ⟨[], by simpa using hp.symm, by simpa using hc.symm⟩
    | cons d later =>
        obtain ⟨rfl, -⟩ := List.cons.inj hc
        exact .inl ⟨later, hp⟩

/-- A mark at a place starts one of these comments just if it stands in none of them, and in none of
the string literals among these tokens. -/
def Marks (found : List Comment) (ts : List Token) (place : Nat) : Prop :=
  (∃ c ∈ found, c.offset = place) ↔
    (∀ c ∈ found, c.holds place = false) ∧ ∀ t ∈ ts, t.kind = .string → t.holds place = false

/-- The comments and tokens all start behind a place. -/
structure Behind (place : Nat) (found : List Comment) (ts : List Token) : Prop where
  comments : ∀ c ∈ found, place < c.offset
  tokens : ∀ t ∈ ts, place < t.start

section

variable {found : List Comment} {place : Nat} {c : Comment} {t : Token}

/-- In a tokenized text behind a place all comments and tokens start behind it. -/
theorem Behind.of_tokenized {stop : Nat} (h : Tokenized n stop cs ts) (before : place < stop) :
    Behind place (lineComments stop cs) ts :=
  ⟨fun c hc => Nat.lt_of_lt_of_le before (h.le_offset c hc),
    fun t ht => Nat.lt_of_lt_of_le before (h.ordered.1 t ht)⟩

theorem Behind.ne (h : Behind place found ts) : ∀ c ∈ found, c.offset ≠ place :=
  fun c hc => Nat.ne_of_gt (h.comments c hc)

/-- No comment or token behind a place holds it. -/
theorem Behind.not_holds (h : Behind place found ts) :
    (∀ c ∈ found, c.holds place = false) ∧ ∀ t ∈ ts, t.holds place = false := by
  refine ⟨fun c hc => ?_, fun t ht => ?_⟩
  · have := h.comments c hc
    simp [Comment.holds, Nat.not_lt_of_gt this]
  · have := h.tokens t ht
    simp [Token.holds, Nat.not_le_of_gt this]

/-- The mark of a comment. -/
theorem Marks.start (h : Behind c.offset found ts) : Marks (c :: found) ts c.offset := by
  have own : c.holds c.offset = false := by simp [Comment.holds]
  exact iff_of_true ⟨c, List.mem_cons_self, rfl⟩
    ⟨List.forall_mem_cons.mpr ⟨own, h.not_holds.1⟩, fun t ht _ => h.not_holds.2 t ht⟩

/-- A mark in a comment. -/
theorem Marks.inComment (h : Behind place found ts) (hc : c.holds place = true) :
    Marks (c :: found) ts place := by
  have other : c.offset ≠ place := by
    rintro rfl
    simp [Comment.holds] at hc
  refine iff_of_false ?_ fun all => ?_
  · rintro ⟨d, hd, rfl⟩
    obtain rfl | hd := List.mem_cons.mp hd
    · exact other rfl
    · exact h.ne d hd rfl
  · rw [all.1 c List.mem_cons_self] at hc
    cases hc

/-- A mark in a string literal. -/
theorem Marks.inString (h : Behind place found ts) (hk : t.kind = .string)
    (ht : t.holds place = true) : Marks found (t :: ts) place := by
  refine iff_of_false ?_ fun all => ?_
  · rintro ⟨c, hc, e⟩
    exact h.ne c hc e
  · rw [all.2 t List.mem_cons_self hk] at ht
    cases ht

/-- A mark behind a comment. -/
theorem Marks.behindComment (h : Marks found ts place)
    (hp : c.offset + Text.width ('#' :: c.text) ≤ place) : Marks (c :: found) ts place := by
  have outside : c.holds place = false := by simp [Comment.holds, Nat.not_lt_of_ge hp]
  have other : c.offset ≠ place := by
    have positive := Char.utf8Size_pos '#'
    rw [Text.width] at hp
    omega
  rw [Marks] at h ⊢
  simpa [other, outside] using h

/-- A mark behind a token. -/
theorem Marks.behindToken (h : Marks found ts place) (hp : t.stop ≤ place) :
    Marks found (t :: ts) place := by
  have outside : t.holds place = false := by simp [Token.holds, Nat.not_lt_of_ge hp]
  rw [Marks] at h ⊢
  simpa [outside] using h

end

/-- **A mark starts a comment unless it stands in a comment or in a string literal.** -/
theorem Tokenized.marks (h : Tokenized n offset cs ts) {pre post : List Char}
    (e : cs = pre ++ '#' :: post) :
    Marks (lineComments offset cs) ts (offset + Text.width pre) := by
  induction h generalizing pre with
  | nil => simp at e
  | @blank n offset c cs ts hb t ih =>
      cases pre with
      | nil =>
          cases e
          cases hb
      | cons d pre =>
          obtain ⟨rfl, behind⟩ := List.cons.inj e
          rw [Dsl.lineComments_blank hb, Text.width, ← Nat.add_assoc]
          exact ih behind
  | @comment n offset body cs ts hb he t ih =>
      rw [Dsl.lineComments_ended hb he]
      obtain ⟨later, inside⟩ | ⟨front, rfl, behind⟩ := mem_parts ('#' :: body) e
      · have before : offset + Text.width pre < offset + Text.width ('#' :: body) := by
          have := Char.utf8Size_pos '#'
          rw [inside, Text.width_append, Text.width]
          omega
        have later := Behind.of_tokenized t before
        cases pre with
        | nil => exact .start later
        | cons d pre =>
            have := d.utf8Size_pos
            refine .inComment later ?_
            simp only [Comment.holds, Bool.and_eq_true, decide_eq_true_eq]
            exact ⟨by rw [Text.width]; omega, before⟩
      · rw [Text.width_append, ← Nat.add_assoc]
        exact (ih behind).behindComment (Nat.le_add_right _ _)
  | @token n m offset l cs ts hs hn t ih =>
      rw [Dsl.lineComments_lexeme hs]
      obtain ⟨later, inside⟩ | ⟨front, rfl, behind⟩ := mem_parts _ e
      · have before : offset + Text.width pre < offset + Text.width l.text := by
          have := Char.utf8Size_pos '#'
          rw [inside, Text.width_append, Text.width]
          omega
        -- no other lexeme has a mark in it
        obtain ⟨body, rfl⟩ : ∃ body, l = .string body := by
          by_contra other
          have quiet := hs.quiet fun body e => other ⟨body, e⟩
          exact (quiet '#' (by simp [inside])).2 rfl
        refine .inString (Behind.of_tokenized t before) rfl ?_
        simp only [Token.holds, Bool.and_eq_true, decide_eq_true_eq]
        exact ⟨Nat.le_add_right _ _, before⟩
      · rw [Text.width_append, ← Nat.add_assoc]
        exact (ih behind).behindToken (Nat.le_add_right _ _)

/-! ### Accepted texts -/

/-- The comments that the linter drops from a text. -/
def dropped (text : List Char) : List Comment :=
  ((pieces text).filter fun t => t.kind = .comment).map Token.comment

/-- **The comments of an accepted text are the same to the grammar, to the search for records and to
the linter**, at the same places and in the same order, carriage returns at their ends apart.  They
start at the marks that stand neither in a comment nor in a string literal.  What the linter goes on
with are all the other tokens that it has read. -/
theorem comments_agree {text : List Char} {o : Option Rule} (h : Dsl.readStructure text = .ok o) :
    (∀ found, Dsl.Passed text found [] ↔ found = (Dsl.comments text).map Comment.chomp) ∧
      dropped text = (Dsl.comments text).map Comment.chomp ∧
      tokens text = (pieces text).filter (fun t => t.kind ≠ .comment) ∧
      ∀ pre post, text = pre ++ '#' :: post →
        Marks ((Dsl.comments text).map Comment.chomp) (tokens text) (Text.width pre) := by
  have closes := closes_of_cut (Dsl.cut_of_readStructure h) .nil
  refine ⟨Dsl.passed_nil_iff h, closes.dropped (Nat.lt_succ_self _) 0,
    tokens_eq_filter text, fun pre post e => ?_⟩
  have marks := (tokenized_of_readStructure h).marks e
  rwa [Nat.zero_add] at marks

/-- A mark in a string literal, one in a comment, and comments in front of a carriage return and at
the end of the text. -/
theorem comments_agree_quoted :
    let text := "a == \"#\" # b \"# c\r\nAND d == 1 #".toList
    ∃ r, Dsl.readStructure text = .ok (some r) ∧
      dropped text = [⟨" b \"# c".toList, 9⟩, ⟨[], 30⟩] ∧
      ∀ found, Dsl.Passed text found [] ↔ found = [⟨" b \"# c".toList, 9⟩, ⟨[], 30⟩] := by
  obtain ⟨passed, same, -, -⟩ :=
    @comments_agree "a == \"#\" # b \"# c\r\nAND d == 1 #".toList _ rfl
  have found : (Dsl.comments "a == \"#\" # b \"# c\r\nAND d == 1 #".toList).map Comment.chomp =
      [⟨" b \"# c".toList, 9⟩, ⟨[], 30⟩] := by decide +kernel
  rw [found] at passed same
  exact ⟨_, rfl, same, passed⟩

end Rulebook.Lint
