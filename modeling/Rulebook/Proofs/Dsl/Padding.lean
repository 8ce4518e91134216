import Rulebook.Proofs.Dsl.Comment
import Rulebook.Proofs.Dsl.Parallel
import Rulebook.Proofs.Lint.Boundaries

/-!
# Rulebook — Proofs — Dsl — Padding

Texts with more blanks and comments between their tokens.  What is put in is a `Padding`: ASCII
blanks, and comments without a record, each with the end of its line.  It goes in before, after or
between the tokens and comments of a text (`Padded`), which are those that the linter sees.  In a
text that closes its parentheses, none of that changes a lexeme (`Padded.parallel`) or a record
(`Padded.recordTexts`).
-/

namespace Rulebook.Dsl

open Lint (Beside Resumes Breaks breakChars)

/-- ASCII blanks, and comments without a record up to the ends of their lines. -/
inductive Padding : List Char → Prop where
  | nil : Padding []
  | blank {c : Char} {cs : List Char} (hc : Text.isAsciiBlank c = true) (t : Padding cs) :
      Padding (c :: cs)
  | comment {body cs : List Char} (hb : OnLine body) (hm : ¬ recordMarker <+: Text.trim body)
      (t : Padding cs) : Padding ('#' :: (body ++ '\n' :: cs))

/-- What the record comment with this text holds. -/
def recordOf? (body : List Char) : Option (List Char) := Comment.record? ⟨body, 0⟩

/-- What the line of a comment may go on with: blanks, and a further comment unless there is a
record in front of it. -/
def GoesOn (body gap : List Char) : Prop :=
  ∃ blanks, (∀ c ∈ blanks, Text.isAsciiBlank c = true) ∧
    (gap = blanks ∨ recordOf? body = none ∧ ∃ line, gap = blanks ++ '#' :: line)

/-- The text starts with the end of a line, or it is over. -/
def LineEnds (cs : List Char) : Prop := cs = [] ∨ ∃ t, cs = '\n' :: t ∨ cs = '\r' :: '\n' :: t

/-- The second text is the first one with paddings before, after or between its tokens and
comments, and with `more` behind it.  What is put in right behind a comment becomes a part of it, up
to the end of the line. -/
inductive Padded (more : List Char) : List Char → List Char → Prop where
  | done : Padded more [] more
  | pad {part cs ds : List Char} (hp : Padding part) (t : Padded more cs ds) :
      Padded more cs (part ++ ds)
  | blank {c : Char} {cs ds : List Char} (hc : Text.isBlank c = true) (t : Padded more cs ds) :
      Padded more (c :: cs) (c :: ds)
  | token {c : Char} {cs text rest ds : List Char} {kind : Lint.TokenKind}
      (hb : Text.isBlank c = false) (ht : Lint.nextToken c cs = (kind, text, rest))
      (hk : kind ≠ .comment) (t : Padded more rest ds) : Padded more (c :: cs) (text ++ ds)
  | comment {body gap cs ds : List Char} (hb : OnLine (body ++ gap)) (hg : GoesOn body gap)
      (hc : LineEnds cs) (hd : LineEnds ds) (t : Padded more cs ds) :
      Padded more ('#' :: (body ++ cs)) ('#' :: (body ++ gap ++ ds))

variable {more cs ds : List Char}

/-! ### Where lexemes end -/

/-- Blanks end every lexeme. -/
theorem mem_breakChars {c : Char} (h : Text.isAsciiBlank c = true) : c ∈ breakChars := by
  simp only [Text.isAsciiBlank, Bool.or_eq_true, decide_eq_true_eq] at h
  rcases h with (((rfl | rfl) | rfl) | rfl) | rfl <;> decide

/-- A padding starts with what ends every lexeme. -/
theorem Padding.breaks {part : List Char} (h : Padding part) (hne : part ≠ []) (ds : List Char) :
    Breaks (part ++ ds) := by
  cases h with
  | nil => exact absurd rfl hne
  | blank hc t =>
      rintro _ ⟨⟩
      exact mem_breakChars hc
  | comment hb hm t =>
      rintro _ ⟨⟩
      decide

theorem nextToken_point : Lint.nextToken '.' cs = (.other, ['.'], cs) := by
  rfl

/-- A padded text starts like the text, or with what ends every lexeme. -/
theorem Padded.beside (h : Padded more cs ds) (hm : Breaks more) : Beside cs ds := by
  induction h with
  | done => exact .inr hm
  | @pad part cs ds hp t ih =>
      by_cases hne : part = []
      · subst hne
        exact ih
      · exact .inr (hp.breaks hne ds)
  | blank hc t ih => exact .inl rfl
  | token hb ht hk t ih =>
      obtain ⟨u, rfl⟩ := Lint.exists_cons_of_nextToken ht
      exact .inl rfl
  | comment hb hg hc hd t ih => exact .inl rfl

/-- A padded text starts like the text so far as a lexeme in front can tell. -/
theorem Padded.resumes (h : Padded more cs ds) (hm : Breaks more) : Resumes cs ds := by
  refine ⟨h.beside hm, fun v e => ?_⟩
  induction h with
  | done =>
      subst e
      exact absurd (hm '.' rfl) (by decide)
  | @pad part cs ds hp t ih =>
      by_cases hne : part = []
      · subst hne
        exact ih e
      · have breaks := hp.breaks hne ds
        rw [e] at breaks
        exact absurd (breaks '.' rfl) (by decide)
  | blank hc t ih =>
      cases e
      exact absurd hc (by decide)
  | @token c cs text rest ds kind hb ht hk t ih =>
      obtain ⟨u, rfl⟩ := Lint.exists_cons_of_nextToken ht
      obtain ⟨rfl, behind⟩ := List.cons.inj e
      rw [nextToken_point] at ht
      cases ht
      exact ⟨_, rfl, behind ▸ t.beside hm⟩
  | comment hb hg hc hd t ih => cases e

/-! ### Comments are skipped -/

/-- The front of a line is on a line. -/
theorem OnLine.of_append {body gap : List Char} (h : OnLine (body ++ gap)) : OnLine body :=
  fun c hc => h c (List.mem_append_left gap hc)

theorem OnLine.not_mem {body : List Char} (h : OnLine body) : '\n' ∉ body :=
  fun hm => (h _ hm).1 rfl

theorem lineCloses_return {body : List Char} (h : OnLine body) (cs : List Char) :
    lineCloses (body ++ '\r' :: '\n' :: cs) = true := by
  induction body with
  | nil => rfl
  | cons c body ih =>
      obtain ⟨⟨hn, hr⟩, hb⟩ := List.forall_mem_cons.mp h
      rw [List.cons_append, lineCloses.eq_def]
      simp only [hn, hr, if_false]
      exact ih hb

/-- A comment is skipped with the carriage return at its end. -/
theorem skipComment_return {body : List Char} (h : OnLine body) (cs : List Char) :
    skipComment (body ++ '\r' :: '\n' :: cs) = skipTrivia cs := by
  induction body with
  | nil => simp [skipComment]
  | cons c body ih =>
      obtain ⟨⟨hn, -⟩, hb⟩ := List.forall_mem_cons.mp h
      rw [List.cons_append, skipComment, if_neg hn]
      exact ih hb

/-- A carriage return at the end of a line is skipped with its comment. -/
theorem skipTrivia_return {body : List Char} (h : OnLine body) (cs : List Char) :
    skipTrivia ('#' :: (body ++ '\r' :: '\n' :: cs)) = skipTrivia cs := by
  have mark : Text.isAsciiBlank '#' = false := by decide
  simp [skipTrivia, mark, lineCloses_return h, skipComment_return h]

/-- A comment is skipped up to the end of its line. -/
theorem skipTrivia_ended {body : List Char} (h : OnLine body) (hc : LineEnds cs) :
    skipTrivia ('#' :: (body ++ cs)) = skipTrivia cs := by
  obtain rfl | ⟨t, rfl | rfl⟩ := hc
  · rw [List.append_nil, skipTrivia_lastLine h]
    rfl
  · rw [skipTrivia_line h, skipTrivia_lineFeed]
  · rw [skipTrivia_return h, skipTrivia_blank _ (by decide), skipTrivia_lineFeed]

/-- A padding is skipped. -/
theorem Padding.skipTrivia {part : List Char} (h : Padding part) (ds : List Char) :
    skipTrivia (part ++ ds) = skipTrivia ds := by
  induction h with
  | nil => rfl
  | blank hc t ih => rw [List.cons_append, skipTrivia_blank _ hc, ih]
  | comment hb hm t ih =>
      rw [List.cons_append, List.append_assoc, List.cons_append, skipTrivia_line hb, ih]

/-! ### The same lexemes -/

/-- A line is split off where it ends. -/
theorem splitLine_append {body : List Char} (h : OnLine body) (hc : LineEnds cs) :
    splitLine (body ++ cs) = (body, cs) := by
  induction body with
  | nil =>
      obtain rfl | ⟨t, rfl | rfl⟩ := hc
      · rfl
      · rfl
      · rfl
  | cons c body ih =>
      obtain ⟨⟨hn, hr⟩, hb⟩ := List.forall_mem_cons.mp h
      rw [List.cons_append, splitLine.eq_def]
      simp only [if_neg hn, if_neg hr, ih hb]

/-- A comment closes nothing. -/
theorem closes_of_comment {n : Nat} {body : List Char} (hb : OnLine body) (hc : LineEnds cs)
    (h : Lint.Closes n ('#' :: (body ++ cs))) : Lint.Closes n cs := by
  have behind := h.of_comment
  rwa [splitLine_append hb hc] at behind

/-- **Padding changes no lexeme** of a text that closes its parentheses. -/
theorem Padded.parallel {n : Nat} (h : Padded more cs ds) (hm : Breaks more)
    (hc : Lint.Closes n cs) : Parallel (Dsl.skipTrivia more) n cs ds := by
  induction h generalizing n with
  | done =>
      cases hc
      exact .finish rfl rfl
  | pad hp t ih => exact (ih hc).congr rfl (hp.skipTrivia _)
  | @blank c cs ds hb t ih =>
      obtain ⟨ha, behind⟩ := hc.of_blank hb
      exact (ih behind).congr (skipTrivia_blank _ ha) (skipTrivia_blank _ ha)
  | @token c cs text rest ds kind hb ht hk t ih =>
      have ha : Text.isAsciiBlank c = false := Text.isAsciiBlank_of_isBlank hb
      obtain ⟨l, m, rfl, -, e, hs, hn, hm'⟩ := hc.lexeme ha ht hk
      have hd := Lint.Stands.resume hs (t.resumes hm)
      exact .lexeme (by rw [← e, hs.skipTrivia]) hd.skipTrivia hs hd hn (ih hm')
  | @comment body gap cs ds hb hg he hd t ih =>
      have behind := ih (closes_of_comment hb.of_append he hc)
      exact behind.congr (skipTrivia_ended hb.of_append he) (skipTrivia_ended hb hd)

/-! ### The same records -/

/-- What the record comments of a text hold, in order. -/
def recordTexts (cs : List Char) : List (List Char) := (notes cs).filterMap recordOf?

/-- The records of a text are read from its comments. -/
theorem filterMap_record? (cs : List Char) :
    (comments cs).filterMap Comment.record? = recordTexts cs := by
  rw [recordTexts, notes, List.filterMap_map]
  rfl

/-- A part without comments has no records. -/
theorem Scans.recordTexts {part : List Char} (h : Scans part []) (rest : List Char) :
    recordTexts (part ++ rest) = recordTexts rest := by
  rw [Dsl.recordTexts, h rest]
  rfl

/-- A string literal hides what is in it. -/
theorem notesInString_of_stringRest {s rest : List Char} (h : stringRest cs = .ok s rest) :
    notesInString cs = notes rest := by
  fun_induction stringRest cs generalizing s with
  | case1 => cases h
  | case2 cs =>
      cases h
      exact notesInString_close _
  | case3 => cases h
  | case4 e cs s' rest' hs ih =>
      cases h
      rw [notesInString_escape, ih hs]
  | case5 e cs f rest' hs => cases h
  | case6 c cs quote last escape s' rest' hs ih =>
      cases h
      have plain := Text.ne_backslash last escape
      rw [notesInString_other plain quote, ih hs]
  | case7 c cs quote last escape f rest' hs => cases h

theorem quiet_word {w : List Char} (h : Text.isName w = true) : Quiet w := by
  have name : isName (String.ofList w) = true := by
    rw [isName, String.toList_ofList]
    exact h
  have quiet := quiet_name name
  rwa [String.toList_ofList] at quiet

/-- A lexeme that is no string literal has neither quotes nor marks in it. -/
theorem Lexeme.Stands.quiet {l : Lexeme} {rest : List Char} (h : l.Stands rest)
    (hs : ∀ body, l ≠ .string body) : Quiet l.text := by
  cases l with
  | word w => exact quiet_word h.1
  | number negative whole places =>
      have sign : Quiet (if negative then ['-'] else []) := by
        cases negative <;> decide
      have point : Quiet (placesText places) := by
        cases places with
        | nil => exact List.forall_mem_nil _
        | cons d ds => exact List.forall_mem_cons.mpr ⟨by decide, quiet_digits h.2.2.1⟩
      exact sign.append ((quiet_digits h.2.1).append point)
  | string body => exact absurd rfl (hs body)
  | reference field =>
      have marks : Quiet ['$', '\x7b'] := by decide
      exact marks.append ((quiet_word h).append (by decide))
  | symbol s =>
      have quiet : ∀ s ∈ Lint.symbols, Quiet s := by decide
      exact quiet s h.1
  | char c =>
      have lone : isLone c = true := h.1
      refine List.forall_mem_singleton.mpr ⟨?_, ?_⟩
      · rintro rfl
        exact absurd lone (by decide)
      · rintro rfl
        exact absurd lone (by decide)

/-- There is no comment in a lexeme. -/
theorem Lexeme.Stands.scans {l : Lexeme} {rest : List Char} (h : l.Stands rest) :
    Scans l.text [] := by
  cases l with
  | string body =>
      obtain ⟨s, hs⟩ := h
      intro t
      rw [Lexeme.text, List.cons_append, notes_quote, notesInString_of_stringRest (hs t)]
      rfl
  | _ => exact .quiet _ (h.quiet fun body e => by cases e)

/-- A trimmed text starts with a word if the text does, blanks in front apart. -/
theorem recordMarker_trim {cs : List Char} (h : recordMarker <+: Text.trimStart cs) :
    recordMarker <+: Text.trim cs := by
  obtain ⟨t, e⟩ := h
  rw [Text.trim, Text.trimEnd, ← e, List.reverse_append, List.dropWhile_append]
  split
  · exact List.prefix_refl _
  · rw [List.reverse_append, List.reverse_reverse]
    exact List.prefix_append _ _

/-- A comment holds no record exactly if it does not start with the mark of one. -/
theorem recordOf?_eq_none_iff {body : List Char} :
    recordOf? body = none ↔ ¬ recordMarker <+: Text.trimStart body := by
  rw [recordOf?, Comment.record?]
  simp [List.isPrefixOf_iff_prefix]

theorem recordOf?_eq_none {body : List Char} (h : ¬ recordMarker <+: Text.trim body) :
    recordOf? body = none :=
  recordOf?_eq_none_iff.mpr fun hm => h (recordMarker_trim hm)

/-- What stands behind a text makes no word of it that has none of its first character. -/
theorem not_prefix_append {w gap : List Char} (h : ¬ w <+: cs) (hg : ∀ c ∈ gap.head?, c ∉ w) :
    ¬ w <+: cs ++ gap := by
  intro hw
  obtain shorter | ⟨s, rfl⟩ := List.prefix_or_prefix_of_prefix hw (List.prefix_append cs gap)
  · exact h shorter
  · obtain ⟨t, rfl⟩ := (List.prefix_append_right_inj cs).mp hw
    cases s with
    | nil => exact h (by rw [List.append_nil])
    | cons c s => exact hg c rfl (List.mem_append_right _ List.mem_cons_self)

theorem dropWhile_blanks {blanks : List Char} (h : ∀ c ∈ blanks, Text.isBlank c = true) :
    blanks.dropWhile Text.isBlank = [] := by
  simpa using Text.dropWhile_run h Text.startsOutside_nil

/-- Blanks at the end are trimmed away. -/
theorem trim_append {blanks : List Char} (h : ∀ c ∈ blanks, Text.isBlank c = true) :
    Text.trim (cs ++ blanks) = Text.trim cs := by
  rw [Text.trim, Text.trim, Text.trimStart, Text.trimStart, List.dropWhile_append]
  split
  · rename_i e
    rw [dropWhile_blanks h, List.isEmpty_iff.mp e]
  · rw [Text.trimEnd, List.reverse_append, List.dropWhile_append_of_pos fun c hc =>
      h c (List.mem_reverse.mp hc)]
    rfl

theorem not_mem_recordMarker {c : Char} (h : Text.isBlank c = true) : c ∉ recordMarker :=
  Text.not_mem_of_class (p := Text.isBlank) (by decide) h

/-- Blanks at the end of a comment leave its record as it is. -/
theorem recordOf?_append {body blanks : List Char}
    (h : ∀ c ∈ blanks, Text.isBlank c = true) : recordOf? (body ++ blanks) = recordOf? body := by
  have start : ∀ c ∈ blanks.head?, c ∉ recordMarker :=
    fun c hc => not_mem_recordMarker (h c (List.mem_of_mem_head? hc))
  rw [recordOf?, recordOf?, Comment.record?, Comment.record?]
  dsimp only
  rw [Text.trimStart, Text.trimStart, List.dropWhile_append]
  split
  · rename_i e
    rw [dropWhile_blanks h, List.isEmpty_iff.mp e]
  · by_cases hm : recordMarker <+: body.dropWhile Text.isBlank
    · obtain ⟨t, e⟩ := hm
      rw [← e, List.append_assoc, if_pos (by simp), if_pos (by simp), List.drop_left,
        List.drop_left, trim_append h]
    · have hm' := not_prefix_append hm start
      rw [if_neg (mt List.isPrefixOf_iff_prefix.mp hm'),
        if_neg (mt List.isPrefixOf_iff_prefix.mp hm)]

/-- A comment behind a comment without a record makes no record of it. -/
theorem recordOf?_append_mark {body blanks : List Char} (hn : recordOf? body = none)
    (h : ∀ c ∈ blanks, Text.isBlank c = true) (line : List Char) :
    recordOf? (body ++ (blanks ++ '#' :: line)) = none := by
  have start : ∀ c ∈ (blanks ++ '#' :: line).head?, c ∉ recordMarker := by
    cases blanks with
    | nil =>
        rintro _ ⟨⟩
        decide
    | cons d blanks =>
        rintro _ ⟨⟩
        exact not_mem_recordMarker (h d List.mem_cons_self)
  rw [recordOf?_eq_none_iff, Text.trimStart] at hn ⊢
  rw [List.dropWhile_append]
  split
  · rw [List.dropWhile_append_of_pos h, List.dropWhile_cons_of_neg (by decide)]
    exact fun hm => absurd (List.cons_prefix_cons.mp hm).1 (by decide)
  · exact not_prefix_append hn start

/-- Nothing that a comment goes on with changes its record. -/
theorem GoesOn.recordOf? {body gap : List Char} (h : GoesOn body gap) :
    recordOf? (body ++ gap) = recordOf? body := by
  obtain ⟨blanks, hb, hg⟩ := h
  have blank : ∀ c ∈ blanks, Text.isBlank c = true :=
    fun c hc => Text.isBlank_of_isAsciiBlank (hb c hc)
  obtain rfl | ⟨hn, line, rfl⟩ := hg
  · exact recordOf?_append blank
  · rw [recordOf?_append_mark hn blank, hn]

/-- A character that starts neither a string literal nor a comment has no record. -/
theorem recordTexts_of_ne {c : Char} (hq : c ≠ '"') (hc : c ≠ '#') (cs : List Char) :
    recordTexts (c :: cs) = recordTexts cs := by
  rw [recordTexts, notes_other hq hc]
  rfl

theorem recordTexts_blank {c : Char} (hb : Text.isBlank c = true) (cs : List Char) :
    recordTexts (c :: cs) = recordTexts cs := by
  have few : c ∉ ['"', '#'] := Text.not_mem_of_class (p := Text.isBlank) (by decide) hb
  simp only [List.mem_cons, List.not_mem_nil, or_false, not_or] at few
  exact recordTexts_of_ne few.1 few.2 cs

/-- The record of a comment comes before those of the text behind it. -/
theorem recordTexts_comment {body : List Char} (h : '\n' ∉ body) (cs : List Char) :
    recordTexts ('#' :: (body ++ '\n' :: cs)) = (recordOf? body).toList ++ recordTexts cs := by
  rw [recordTexts, notes_line h, List.filterMap_cons]
  cases recordOf? body <;> rfl

/-- A carriage return at the end of its line makes no difference to a record. -/
theorem recordTexts_ended {body : List Char} (h : OnLine body) (hc : LineEnds cs) :
    recordTexts ('#' :: (body ++ cs)) = (recordOf? body).toList ++ recordTexts cs := by
  obtain rfl | ⟨t, rfl | rfl⟩ := hc
  · rw [List.append_nil, recordTexts, notes_lastLine h.not_mem, List.filterMap_cons]
    cases recordOf? body <;> rfl
  · rw [recordTexts_comment h.not_mem, recordTexts_of_ne (by decide) (by decide)]
  · have line : '\n' ∉ body ++ ['\r'] := by simp [h.not_mem]
    have e : '#' :: (body ++ '\r' :: '\n' :: t) = '#' :: (body ++ ['\r'] ++ '\n' :: t) := by simp
    rw [e, recordTexts_comment line, recordOf?_append (List.forall_mem_singleton.mpr (by decide)),
      recordTexts_of_ne (by decide) (by decide), recordTexts_of_ne (by decide) (by decide)]

/-- A padding has no records. -/
theorem Padding.recordTexts {part : List Char} (h : Padding part) (ds : List Char) :
    recordTexts (part ++ ds) = recordTexts ds := by
  induction h with
  | nil => rfl
  | blank hc t ih =>
      rw [List.cons_append, recordTexts_blank (Text.isBlank_of_isAsciiBlank hc), ih]
  | @comment body cs hb hm t ih =>
      rw [List.cons_append, List.append_assoc, List.cons_append, recordTexts_comment hb.not_mem,
        recordOf?_eq_none hm, ih]
      rfl

/-- **Padding changes no record** of a text that closes its parentheses. -/
theorem Padded.recordTexts {n : Nat} (h : Padded more cs ds) (hc : Lint.Closes n cs) :
    recordTexts ds = recordTexts cs ++ recordTexts more := by
  induction h generalizing n with
  | done => rfl
  | pad hp t ih => rw [hp.recordTexts, ih hc]
  | blank hb t ih =>
      rw [recordTexts_blank hb, recordTexts_blank hb, ih (hc.of_blank hb).2]
  | @token c cs text rest ds kind hb ht hk t ih =>
      have ha : Text.isAsciiBlank c = false := Text.isAsciiBlank_of_isBlank hb
      obtain ⟨l, m, rfl, -, e, hs, -, hm⟩ := hc.lexeme ha ht hk
      rw [← e, hs.scans.recordTexts, hs.scans.recordTexts, ih hm]
  | @comment body gap cs ds hb hg he hd t ih =>
      rw [recordTexts_ended hb hd, recordTexts_ended hb.of_append he, hg.recordOf?,
        ih (closes_of_comment hb.of_append he hc), List.append_assoc]

end Rulebook.Dsl
