import Rulebook.Proofs.Lint.Heads

/-!
# Rulebook — Proofs — Lint — Tokenized

A text taken apart into blanks, comments and tokens, each token a lexeme of the grammar
(`Tokenized`).  That is so of every text that closes its parentheses, with the tokens that the
linter sees (`Closes.tokenized`), and so of every text that is accepted.

Where such a text is changed, what stands in front of the change is what it was, if the changed text
begins in such a way that lexemes and comments in front of it end as before (`Resembles`).
-/

namespace Rulebook.Lint

open Dsl (Bridge Lexeme OnLine LineEnds)

/-- The token of a lexeme that starts at an offset. -/
def tokenOf (l : Lexeme) (offset : Nat) : Token := ⟨kindOf l, l.text, offset⟩

/-- The text, whose first character has the given offset, is blanks, comments and these tokens, each
a lexeme that stands before what follows.  It closes `n` open parentheses, and has a partner for
each of its own. -/
inductive Tokenized : (n offset : Nat) → List Char → List Token → Prop where
  | nil {offset : Nat} : Tokenized 0 offset [] []
  | blank {n offset : Nat} {c : Char} {cs : List Char} {ts : List Token}
      (hb : Text.isAsciiBlank c = true) (t : Tokenized n (offset + c.utf8Size) cs ts) :
      Tokenized n offset (c :: cs) ts
  | comment {n offset : Nat} {body cs : List Char} {ts : List Token} (hb : OnLine body)
      (he : LineEnds cs) (t : Tokenized n (offset + Text.width ('#' :: body)) cs ts) :
      Tokenized n offset ('#' :: (body ++ cs)) ts
  | token {n m offset : Nat} {l : Lexeme} {cs : List Char} {ts : List Token} (hs : l.Stands cs)
      (hn : n + l.opened = m + l.closed) (t : Tokenized m (offset + Text.width l.text) cs ts) :
      Tokenized n offset (l.text ++ cs) (tokenOf l offset :: ts)

variable {n fuel : Nat} {cs : List Char}

/-- **A text that closes its parentheses is walked over in blanks, comments and tokens**, the tokens
being lexemes; a comment or a token takes one from the fuel. -/
theorem Closes.walk {motive : (n fuel offset : Nat) → List Char → Prop}
    (nil : ∀ fuel offset, motive 0 (fuel + 1) offset [])
    (blank : ∀ {n fuel offset c cs}, Text.isAsciiBlank c = true →
      motive n (fuel + 1) (offset + c.utf8Size) cs → motive n (fuel + 1) offset (c :: cs))
    (comment : ∀ {n fuel offset body cs}, OnLine body → LineEnds cs →
      Lint.nextToken '#' (body ++ cs) = (.comment, '#' :: body, cs) →
      motive n fuel (offset + Text.width ('#' :: body)) cs →
      motive n (fuel + 1) offset ('#' :: (body ++ cs)))
    (token : ∀ {n m fuel offset l c ds cs}, l.Stands cs → n + l.opened = m + l.closed →
      l.text ++ cs = c :: ds → Text.isBlank c = false → kindOf l ≠ .comment →
      Lint.nextToken c ds = (kindOf l, l.text, cs) →
      motive m fuel (offset + Text.width l.text) cs → motive n (fuel + 1) offset (c :: ds))
    (h : Closes n cs) (enough : cs.length < fuel) (offset : Nat) : motive n fuel offset cs := by
  induction fuel generalizing n cs offset with
  | zero => exact absurd enough (Nat.not_lt_zero _)
  | succ fuel ih =>
      -- blanks take no fuel, so that they are skipped by an induction of their own
      induction cs generalizing offset with
      | nil =>
          cases h
          exact nil fuel offset
      | cons c cs skip =>
          rw [List.length_cons] at enough
          cases hb : Text.isBlank c with
          | true =>
              obtain ⟨ascii, behind⟩ := h.of_blank hb
              exact blank ascii (skip behind (by omega) _)
          | false =>
              obtain ⟨kind, text, rest, ht⟩ : ∃ k t r, Lint.nextToken c cs = (k, t, r) :=
                ⟨_, _, _, rfl⟩
              by_cases hk : kind = .comment
              · subst hk
                obtain ⟨rfl, line⟩ : c = '#' ∧ Dsl.lineCloses cs = true := by
                  simpa [TokenKind.startsAt] using startsAt_of_nextToken ht
                obtain ⟨body, rest, rfl, onLine, ends⟩ := Dsl.exists_line line
                have next : Lint.nextToken '#' (body ++ rest) = (.comment, '#' :: body, rest) := by
                  simp [Lint.nextToken, line, Dsl.splitLine_append onLine ends]
                rw [List.length_append] at enough
                exact comment onLine ends next
                  (ih (Dsl.closes_of_comment onLine ends h) (by omega) _)
              · obtain ⟨l, m, rfl, rfl, e, hs, hn, behind⟩ :=
                  h.lexeme (Text.isAsciiBlank_of_isBlank hb) ht hk
                obtain ⟨d, u, hd, -⟩ := hs.exists_cons
                have shorter := congrArg List.length e
                rw [hd, List.length_append, List.length_cons, List.length_cons] at shorter
                exact token hs hn e hb hk ht (ih behind (by omega) _)

/-- **The tokens of a text that closes its parentheses are its lexemes.** -/
theorem Closes.tokenized (h : Closes n cs) (enough : cs.length < fuel) (offset : Nat) :
    Tokenized n offset cs (tokensWithin fuel offset cs) := by
  refine h.walk (motive := fun n fuel offset cs =>
    Tokenized n offset cs (tokensWithin fuel offset cs)) ?_ ?_ ?_ ?_ enough offset
  · exact fun fuel offset => .nil
  · intro n fuel offset c cs hb ih
    rw [tokensWithin_blank (Text.isBlank_of_isAsciiBlank hb)]
    exact .blank hb ih
  · intro n fuel offset body cs onLine ends next ih
    rw [tokensWithin_token (by decide) next, if_pos rfl]
    exact .comment onLine ends ih
  · intro n m fuel offset l c ds cs hs hn e hb hk next ih
    rw [tokensWithin_token hb next, if_neg hk, ← e]
    exact .token hs hn ih

/-- An accepted text is blanks, comments and the tokens that the linter sees. -/
theorem tokenized_of_readStructure {text : List Char} {o : Option Rule}
    (h : Dsl.readStructure text = .ok o) : Tokenized 0 0 text (tokens text) :=
  (closes_of_cut (Dsl.cut_of_readStructure h) .nil).tokenized (Nat.lt_succ_self _) 0

/-- A token of a connective is that of a word that is read as its keyword. -/
theorem exists_word_of_connective? {l : Lexeme} {offset : Nat} {op : Connective}
    (h : (tokenOf l offset).connective? = some op) :
    ∃ w, l = .word w ∧ Connective.ofKeyword? w = some op := by
  rw [Token.connective?] at h
  split at h
  · rename_i hk
    cases l with
    | word w => exact ⟨w, rfl, h⟩
    | char c =>
        simp only [tokenOf, kindOf, charKind] at hk
        split at hk
        · cases hk
        split at hk
        · cases hk
        split at hk <;> cases hk
    | _ => cases hk
  · cases h

/-- **No comparison is read** where none of the tokens that are comparisons comes next. -/
theorem Tokenized.refuses_comparison {offset : Nat} {ts : List Token}
    (h : Tokenized n offset cs ts) (hc : ∀ t ∈ ts.head?, t.isComparison = false) :
    Dsl.comparison.Refuses (Dsl.skipTrivia cs) := by
  induction h with
  | nil => exact Dsl.wordless_comparison.ends
  | blank hb t ih =>
      rw [Dsl.skipTrivia_blank _ hb]
      exact ih hc
  | comment hb he t ih =>
      rw [Dsl.skipTrivia_ended hb he]
      exact ih hc
  | @token n m offset l cs ts hs hn t ih =>
      rw [hs.skipTrivia]
      have other : (tokenOf l offset).isComparison = false := hc _ rfl
      refine Dsl.refuses_comparison_lexeme ?_ ?_ hs
      · rintro s rfl
        cases other
      · rintro text ht rfl
        simp only [List.mem_cons, List.not_mem_nil, or_false] at ht
        obtain rfl | rfl | rfl := ht <;> cases other

/-! ### In front of a change -/

/-- Lexemes and comments in front of the second text end as in front of the first one. -/
structure Resembles (cs ds : List Char) : Prop where
  admits : Admits cs ds
  lineEnds : LineEnds cs → LineEnds ds
  lineFeed : (∃ t, cs = '\n' :: t) → ∃ t, ds = '\n' :: t

namespace Resembles

variable {ds : List Char}

/-- A text resembles itself. -/
theorem refl (cs : List Char) : Resembles cs cs := ⟨fun _ => id, id, id⟩

/-- The same character may stand in front of both. -/
theorem cons (h : Resembles cs ds) (c : Char) : Resembles (c :: cs) (c :: ds) where
  admits := h.admits.cons c
  lineEnds := by
    rintro (e | ⟨t, e | e⟩)
    · cases e
    · cases e
      exact .inr ⟨ds, .inl rfl⟩
    · cases e
      obtain ⟨u, rfl⟩ := h.lineFeed ⟨t, rfl⟩
      exact .inr ⟨u, .inr rfl⟩
  lineFeed := by
    rintro ⟨t, e⟩
    cases e
    exact ⟨ds, rfl⟩

/-- The same part may stand in front of both. -/
theorem append (h : Resembles cs ds) (part : List Char) : Resembles (part ++ cs) (part ++ ds) := by
  induction part with
  | nil => exact h
  | cons c part ih => exact ih.cons c

/-- A word in front of which something else comes that starts like an operand. -/
theorem of_isNameStart {c : Char} (hc : Text.isNameStart c = true)
    (hd : ∀ d ∈ ds.head?, Text.isNameStart d = true ∨ d = '(' ∨ d = '$') :
    Resembles (c :: cs) ds where
  admits := admits_of_isNameStart hc hd
  lineEnds := by
    rintro (e | ⟨t, e | e⟩) <;> cases e <;> cases hc
  lineFeed := by
    rintro ⟨t, e⟩
    cases e
    cases hc

end Resembles

variable {B : Bridge} {inside i : Bool} {m : Nat} {ds : List Char}

/-- The same blank in front of two texts keeps them aligned. -/
theorem aligned_blank {c : Char} (hb : Text.isAsciiBlank c = true)
    (h : B.Aligned inside i n cs ds) : B.Aligned inside i n (c :: cs) (c :: ds) :=
  h.congr (Dsl.skipTrivia_blank cs hb) (Dsl.skipTrivia_blank ds hb)

/-- The same comment in front of two texts keeps them aligned. -/
theorem aligned_comment {body : List Char} (hb : OnLine body) (he : LineEnds cs)
    (hr : Resembles cs ds) (h : B.Aligned inside i n cs ds) :
    B.Aligned inside i n ('#' :: (body ++ cs)) ('#' :: (body ++ ds)) :=
  h.congr (Dsl.skipTrivia_ended hb he) (Dsl.skipTrivia_ended hb (hr.lineEnds he))

/-- The same lexeme in front of two texts keeps them aligned, with the parentheses it opens or
closes. -/
theorem aligned_token {l : Lexeme} (hs : l.Stands cs) (hr : Resembles cs ds)
    (hn : n + l.opened = m + l.closed) (h : B.Aligned (l.opened == 1) i m cs ds) :
    B.Aligned inside i n (l.text ++ cs) (l.text ++ ds) :=
  .lexeme hs.skipTrivia (hr.admits l hs).skipTrivia hs (hr.admits l hs) (.same l) hn h

/-- The text goes together with itself. -/
theorem Tokenized.aligned {offset : Nat} {ts : List Token} (h : Tokenized n offset cs ts)
    (ht : B.tail = []) (hi : B.ends i) : B.Aligned inside i n cs cs := by
  induction h generalizing inside with
  | nil => exact .finish hi rfl ht.symm
  | blank hb t ih => exact aligned_blank hb ih
  | comment hb he t ih => exact aligned_comment hb he (.refl _) ih
  | token hs hn t ih => exact aligned_token hs (.refl _) hn ih

/-! ### Token by token -/

/-- Blanks and comments in front of a text, and of every text that resembles it. -/
structure Skipped (gap cs : List Char) : Prop where
  skips : ∀ ds, Resembles cs ds → Dsl.skipTrivia (gap ++ ds) = Dsl.skipTrivia ds
  records : ∃ found, ∀ ds, Resembles cs ds →
    Dsl.recordTexts (gap ++ ds) = found ++ Dsl.recordTexts ds

namespace Skipped

variable {gap : List Char}

theorem nil (cs : List Char) : Skipped [] cs := ⟨fun _ _ => rfl, [], fun _ _ => rfl⟩

/-- A blank is skipped. -/
theorem blank {c : Char} (hb : Text.isAsciiBlank c = true) (h : Skipped gap cs) :
    Skipped (c :: gap) cs where
  skips ds hr := (Dsl.skipTrivia_blank _ hb).trans (h.skips ds hr)
  records := by
    obtain ⟨found, hf⟩ := h.records
    exact ⟨found, fun ds hr =>
      (Dsl.recordTexts_blank (Text.isBlank_of_isAsciiBlank hb) _).trans (hf ds hr)⟩

/-- A comment is skipped. -/
theorem comment {body : List Char} (hb : OnLine body) (he : LineEnds (gap ++ cs))
    (h : Skipped gap cs) : Skipped ('#' :: (body ++ gap)) cs where
  skips ds hr := by
    rw [List.cons_append, List.append_assoc,
      Dsl.skipTrivia_ended hb ((hr.append gap).lineEnds he)]
    exact h.skips ds hr
  records := by
    obtain ⟨found, hf⟩ := h.records
    refine ⟨(Dsl.recordOf? body).toList ++ found, fun ds hr => ?_⟩
    rw [List.cons_append, List.append_assoc,
      Dsl.recordTexts_ended hb ((hr.append gap).lineEnds he), hf ds hr, List.append_assoc]

end Skipped

variable {offset : Nat} {t : Token} {ts : List Token}

/-- Where there are no tokens there is nothing to read. -/
theorem Tokenized.skipTrivia_eq_nil (h : Tokenized n offset cs []) : Dsl.skipTrivia cs = [] := by
  generalize e : [] = ts at h
  induction h with
  | nil => rfl
  | blank hb t ih => exact (Dsl.skipTrivia_blank _ hb).trans (ih e)
  | comment hb he t ih => exact (Dsl.skipTrivia_ended hb he).trans (ih e)
  | token hs hn t ih => cases e

/-- Blanks and comments alone have no tokens. -/
theorem Tokenized.eq_nil_of_skipTrivia (h : Tokenized n offset cs ts)
    (hc : Dsl.skipTrivia cs = []) : ts = [] := by
  induction h with
  | nil => rfl
  | blank hb t ih => exact ih ((Dsl.skipTrivia_blank _ hb).symm.trans hc)
  | comment hb he t ih => exact ih ((Dsl.skipTrivia_ended hb he).symm.trans hc)
  | token hs hn t ih =>
      obtain ⟨c, u, e, -⟩ := hs.exists_cons
      rw [hs.skipTrivia, e] at hc
      cases hc

/-- Tokens come in order. -/
theorem Tokenized.ordered (h : Tokenized n offset cs ts) :
    (∀ t ∈ ts, offset ≤ t.start) ∧ ts.Pairwise fun t u => t.start < u.start := by
  induction h with
  | nil => exact ⟨List.forall_mem_nil _, .nil⟩
  | blank hb t ih => exact ⟨fun t ht => Nat.le_of_add_right_le (ih.1 t ht), ih.2⟩
  | comment hb he t ih => exact ⟨fun t ht => Nat.le_of_add_right_le (ih.1 t ht), ih.2⟩
  | @token n m offset l cs ts hs hn t ih =>
      obtain ⟨later, pairs⟩ := ih
      have positive : 0 < Text.width l.text := by
        obtain ⟨c, u, e, -⟩ := hs.exists_cons
        exact Text.width_pos (e ▸ List.cons_ne_nil c u)
      have after (u : Token) (hu : u ∈ ts) : offset < u.start :=
        Nat.lt_of_lt_of_le (Nat.lt_add_of_pos_right positive) (later u hu)
      exact ⟨List.forall_mem_cons.mpr ⟨Nat.le_refl _, fun u hu => Nat.le_of_lt (after u hu)⟩,
        .cons after pairs⟩

/-- The first token of a text is a lexeme behind blanks and comments. -/
theorem Tokenized.exists_lexeme (h : Tokenized n offset cs (t :: ts)) :
    ∃ (gap : List Char) (l : Lexeme) (rest : List Char) (m : Nat), cs = gap ++ (l.text ++ rest) ∧
      t = tokenOf l (offset + Text.width gap) ∧ l.Stands rest ∧ n + l.opened = m + l.closed ∧
      Tokenized m (offset + Text.width (gap ++ l.text)) rest ts ∧ Skipped gap (l.text ++ rest) := by
  generalize e : t :: ts = us at h
  induction h with
  | nil => cases e
  | @blank n offset c cs us hb _ ih =>
      obtain ⟨gap, l, rest, m, rfl, ht, hs, hn, later, skipped⟩ := ih e
      refine ⟨c :: gap, l, rest, m, rfl, ?_, hs, hn, ?_, skipped.blank hb⟩
      · rwa [Text.width, ← Nat.add_assoc]
      · rwa [List.cons_append, Text.width, ← Nat.add_assoc]
  | @comment n offset body cs us hb he _ ih =>
      obtain ⟨gap, l, rest, m, rfl, ht, hs, hn, later, skipped⟩ := ih e
      refine ⟨'#' :: (body ++ gap), l, rest, m, by simp, ?_, hs, hn, ?_, skipped.comment hb he⟩
      · rwa [← List.cons_append, Text.width_append, ← Nat.add_assoc]
      · rwa [← List.cons_append, List.append_assoc, Text.width_append, ← Nat.add_assoc]
  | @token n m offset l cs us hs hn later ih =>
      cases e
      exact ⟨[], l, cs, m, rfl, rfl, hs, hn, later, .nil _⟩

/-- A part of a text in front of which `n` parentheses are open, and behind which `m` are.  It may
stand right behind an opening parenthesis (`inside`), and it may end with one (`last`).  What goes
together behind it goes together with it. -/
structure Precedes (inside : Bool) (n : Nat) (front : List Char) (last : Bool) (m : Nat)
    (cs : List Char) : Prop where
  aligned : ∀ {B : Bridge} {i : Bool} {ds : List Char}, Resembles cs ds →
    B.Aligned last i m cs ds → B.Aligned inside i n (front ++ cs) (front ++ ds)
  records : ∃ found, ∀ ds, Resembles cs ds →
    Dsl.recordTexts (front ++ ds) = found ++ Dsl.recordTexts ds

namespace Precedes

variable {front gap : List Char} {last : Bool}

/-- Blanks and comments may stand anywhere. -/
theorem of_skipped (h : Skipped gap cs) : Precedes inside n gap inside n cs where
  aligned hr ha := ha.congr (h.skips cs (.refl cs)) (h.skips _ hr)
  records := h.records

/-- A lexeme may stand in front of a part, with the parentheses it opens or closes. -/
theorem cons {l : Lexeme} {k : Nat} (h : Precedes (l.opened == 1) m front last k cs)
    (hg : Skipped gap (l.text ++ (front ++ cs))) (hs : l.Stands (front ++ cs))
    (hn : n + l.opened = m + l.closed) :
    Precedes inside n (gap ++ (l.text ++ front)) last k cs where
  aligned hr ha := by
    have behind := hr.append front
    rw [List.append_assoc, List.append_assoc, List.append_assoc, List.append_assoc]
    exact (aligned_token hs behind hn (h.aligned hr ha)).congr (hg.skips _ (.refl _))
      (hg.skips _ (behind.append l.text))
  records := by
    obtain ⟨before, hb⟩ := hg.records
    obtain ⟨found, hf⟩ := h.records
    refine ⟨before ++ found, fun ds hr => ?_⟩
    have stands := (hr.append front).admits l hs
    rw [List.append_assoc, List.append_assoc, hb _ ((hr.append front).append l.text),
      stands.scans.recordTexts, hf ds hr, List.append_assoc]

end Precedes

/-- A lexeme that opens a parenthesis is an opening token. -/
theorem kindOf_of_opened {l : Lexeme} (h : (l.opened == 1) = true) : kindOf l = .opening := by
  cases l with
  | char c =>
      by_cases hc : c = '('
      · exact hc ▸ rfl
      · simp [Lexeme.opened, hc] at h
  | _ => cases h

/-- **A text is cut in front of one of its tokens.** -/
theorem Tokenized.exists_precedes {front later : List Token}
    (h : Tokenized n offset cs (front ++ t :: later)) :
    ∃ (before : List Char) (l : Lexeme) (rest : List Char) (last : Bool) (m k : Nat),
      cs = before ++ (l.text ++ rest) ∧ Precedes inside n before last m (l.text ++ rest) ∧
      (last = true → front = [] ∧ inside = true ∨ ∃ u ∈ front.getLast?, u.kind = .opening) ∧
      t = tokenOf l (offset + Text.width before) ∧ l.Stands rest ∧ m + l.opened = k + l.closed ∧
      Tokenized k (offset + Text.width (before ++ l.text)) rest later := by
  induction front generalizing n offset cs inside with
  | nil =>
      obtain ⟨gap, l, rest, m, rfl, ht, hs, hn, behind, skipped⟩ := h.exists_lexeme
      exact ⟨gap, l, rest, inside, n, m, rfl, .of_skipped skipped, fun e => .inl ⟨rfl, e⟩, ht, hs, hn,
        behind⟩
  | cons u front ih =>
      obtain ⟨gap, l, rest, m, rfl, hu, hs, hn, behind, skipped⟩ := h.exists_lexeme
      obtain ⟨before, l', rest', last, k, j, rfl, precedes, opening, ht, hs', hn', behind'⟩ :=
        @ih m _ (l.opened == 1) _ behind
      have opening (e : last = true) : ∃ v ∈ (u :: front).getLast?, v.kind = .opening := by
        obtain ⟨rfl, opened⟩ | ⟨v, hv, hk⟩ := opening e
        · exact ⟨u, rfl, hu ▸ kindOf_of_opened opened⟩
        · exact ⟨v, by rw [List.getLast?_cons, Option.mem_def.mp hv]; rfl, hk⟩
      have width (part : List Char) : offset + Text.width (gap ++ l.text) + Text.width part =
          offset + Text.width (gap ++ (l.text ++ part)) := by
        rw [Nat.add_assoc, ← Text.width_append, List.append_assoc]
      refine ⟨gap ++ (l.text ++ before), l', rest', last, k, j, by simp,
        precedes.cons skipped hs hn, fun e => .inr (opening e), by rw [ht, width], hs', hn', ?_⟩
      rwa [width, ← List.append_assoc l.text, ← List.append_assoc gap] at behind'

end Rulebook.Lint
