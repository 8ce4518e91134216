import Rulebook.Proofs.Dsl.Spacing
import Rulebook.Proofs.Lint.Checks
import Rulebook.Proofs.Lint.Tokenized

/-!
# Rulebook — Proofs — Lint — Trimming

Blanks taken away at the ends of lines.  The fixes of the findings about them take away some blanks
in front of the end of a line or of the text, and nothing else (`Trimmed`).  No lexeme and no record
depends on such blanks except where they are in a string literal, which may go on over the end of a
line (`Trimmed.parallel`, `Trimmed.recordTexts`).  So the fixed text is read as the text was if they
are outside of string literals (`parse_trimmed`); inside, they are part of a value
(`parse_trimmed_literal`).
-/

namespace Rulebook.Lint

open Dsl (Lexeme Parallel OnLine LineEnds recordTexts)

/-- A space or a tab. -/
def isGap (c : Char) : Bool := c = ' ' || c = '\t'

/-- The end of a line. -/
def isLineEnd (c : Char) : Bool := c = '\n' || c = '\r'

/-- The edits of a text, whose first character has the given offset, and the text with them made:
each takes away blanks in front of the end of a line or of the text. -/
inductive Trimmed : (offset : Nat) → List Char → List Edit → List Char → Prop where
  | nil {offset : Nat} : Trimmed offset [] [] []
  | keep {offset : Nat} {c : Char} {cs ds : List Char} {es : List Edit}
      (t : Trimmed (offset + c.utf8Size) cs es ds) : Trimmed offset (c :: cs) es (c :: ds)
  | trim {offset : Nat} {gap cs ds : List Char} {es : List Edit} (hne : gap ≠ [])
      (hg : ∀ c ∈ gap, isGap c = true) (he : ∀ c ∈ cs.head?, isLineEnd c = true)
      (t : Trimmed (offset + Text.width gap) cs es ds) :
      Trimmed offset (gap ++ cs) (⟨offset, offset + Text.width gap, ""⟩ :: es) ds

variable {n offset : Nat} {c : Char} {cs ds : List Char} {es : List Edit} {ts : List Token}

theorem isAsciiBlank_of_isGap (h : isGap c = true) : Text.isAsciiBlank c = true := by
  simp only [isGap, Bool.or_eq_true, decide_eq_true_eq] at h
  obtain rfl | rfl := h <;> decide

/-! ### What is kept -/

namespace Trimmed

/-- Trimming a text is making the edits. -/
theorem splices (h : Trimmed offset cs es ds) : Splices offset cs es ds := by
  induction h with
  | nil => exact .done
  | keep t ih => exact ih.cons
  | trim hne hg he t ih => exact .edit hne ih

/-- What is no blank is kept. -/
theorem of_cons (h : Trimmed offset (c :: cs) es ds) (hc : isGap c = false) :
    ∃ ds', ds = c :: ds' ∧ Trimmed (offset + c.utf8Size) cs es ds' := by
  generalize e : c :: cs = whole at h
  cases h with
  | nil => cases e
  | keep t =>
      cases e
      exact ⟨_, rfl, t⟩
  | trim hne hg he t =>
      obtain ⟨d, gap, rfl⟩ := List.exists_cons_of_ne_nil hne
      cases e
      rw [hg c List.mem_cons_self] at hc
      cases hc

/-- Trimming keeps a part without spaces and tabs as it is. -/
theorem of_append {part : List Char} (h : Trimmed offset (part ++ cs) es ds)
    (hp : ∀ c ∈ part, isGap c = false) :
    ∃ ds', ds = part ++ ds' ∧ Trimmed (offset + Text.width part) cs es ds' := by
  induction part generalizing offset ds with
  | nil => exact ⟨ds, rfl, h⟩
  | cons c part ih =>
      obtain ⟨hc, hp⟩ := List.forall_mem_cons.mp hp
      obtain ⟨_, rfl, t⟩ := h.of_cons hc
      obtain ⟨ds', rfl, t⟩ := ih t hp
      exact ⟨ds', rfl, by rwa [Text.width, ← Nat.add_assoc]⟩

/-- A part in which no edit starts is kept. -/
theorem of_untouched {part : List Char} (h : Trimmed offset (part ++ cs) es ds)
    (hp : ∀ e ∈ es, ¬ (offset ≤ e.start ∧ e.start < offset + Text.width part)) :
    ∃ ds', ds = part ++ ds' ∧ Trimmed (offset + Text.width part) cs es ds' := by
  induction part generalizing offset ds with
  | nil => exact ⟨ds, rfl, h⟩
  | cons c part ih =>
      generalize e : c :: part ++ cs = whole at h
      cases h with
      | nil => cases e
      | keep t =>
          cases e
          obtain ⟨ds', rfl, t⟩ := ih t fun e he inside => hp e he (by
            rw [Text.width]
            omega)
          exact ⟨ds', rfl, by rwa [Text.width, ← Nat.add_assoc offset]⟩
      | trim hne hg he t =>
          have positive := Text.width_pos (List.cons_ne_nil c part)
          exact absurd ⟨Nat.le_refl _, Nat.lt_add_of_pos_right positive⟩
            (hp _ List.mem_cons_self)

/-- Only blanks at the end of a line are taken away from it. -/
theorem of_line {body : List Char} (h : Trimmed offset (body ++ cs) es ds) (hb : OnLine body)
    (he : LineEnds cs) : ∃ kept gap es' ds', body = kept ++ gap ∧ (∀ c ∈ gap, isGap c = true) ∧
      ds = kept ++ ds' ∧ es' ⊆ es ∧ Trimmed (offset + Text.width body) cs es' ds' := by
  induction body generalizing offset ds with
  | nil => exact ⟨[], [], es, ds, rfl, nofun, rfl, List.Subset.refl es, h⟩
  | cons c body ih =>
      generalize e : c :: body ++ cs = whole at h
      cases h with
      | nil => cases e
      | keep t =>
          cases e
          obtain ⟨kept, gap, es', ds', rfl, hg, rfl, hs, t⟩ :=
            ih t (List.forall_mem_cons.mp hb).2
          exact ⟨c :: kept, gap, es', ds', rfl, hg, rfl, hs, by rwa [Text.width, ← Nat.add_assoc]⟩
      | trim hne hg hend t =>
          have outside : Text.StartsOutside isGap cs := by
            obtain rfl | ⟨t, rfl | rfl⟩ := he
            · exact Text.startsOutside_nil
            · exact Text.startsOutside_cons (by decide)
            · exact Text.startsOutside_cons (by decide)
          obtain ⟨m, hm, rfl⟩ := Text.exists_append_of_run hg outside e
          cases m with
          | nil =>
              rw [List.append_nil] at hm
              subst hm
              exact ⟨[], _, _, ds, rfl, hg, rfl, List.subset_cons_self _ _, t⟩
          | cons d m =>
              -- the blanks would be in front of the end of a line inside the line
              have inside := hb d (by rw [hm]; simp)
              simpa [isLineEnd, inside.1, inside.2] using hend d rfl

/-- A text that starts at the end of a line does so trimmed. -/
theorem lineEnds (h : Trimmed offset cs es ds) (hc : LineEnds cs) : LineEnds ds := by
  obtain rfl | ⟨t, rfl | rfl⟩ := hc
  · generalize e : [] = whole at h
    cases h with
    | nil => exact .inl rfl
    | keep t => cases e
    | trim hne hg he t => exact absurd (List.append_eq_nil_iff.mp e.symm).1 hne
  · obtain ⟨_, rfl, -⟩ := h.of_cons (by decide)
    exact .inr ⟨_, .inl rfl⟩
  · obtain ⟨_, rfl, t⟩ := h.of_cons (by decide)
    obtain ⟨_, rfl, -⟩ := t.of_cons (by decide)
    exact .inr ⟨_, .inr rfl⟩

/-! ### Lexemes and records -/

/-- A line that ends, ends a lexeme. -/
theorem beside (h : Trimmed offset cs es ds) : Beside cs ds := by
  cases h with
  | nil => exact .inl rfl
  | keep t => exact .inl rfl
  | @trim _ gap cs _ _ hne hg he t =>
      refine .inr fun c hc => ?_
      cases t with
      | nil => cases hc
      | keep t =>
          cases hc
          have ends := he c rfl
          simp only [isLineEnd, Bool.or_eq_true, decide_eq_true_eq] at ends
          obtain rfl | rfl := ends <;> decide
      | trim hne' hg' he' t =>
          obtain ⟨d, gap', rfl⟩ := List.exists_cons_of_ne_nil hne'
          have ends := he d rfl
          have blank := hg' d List.mem_cons_self
          simp only [isLineEnd, Bool.or_eq_true, decide_eq_true_eq] at ends
          obtain rfl | rfl := ends <;> cases blank

/-- A trimmed text starts like the text so far as a lexeme in front can tell. -/
theorem resumes (h : Trimmed offset cs es ds) : Resumes cs ds := by
  refine ⟨h.beside, fun v e => ?_⟩
  subst e
  obtain same | breaks := h.beside
  · cases cs with
    | nil => cases same
    | cons c cs =>
        cases same
        obtain ⟨_, e, t⟩ := h.of_cons (by decide)
        cases e
        exact ⟨cs, rfl, t.beside⟩
  · exact absurd (breaks '.' rfl) (by decide)

end Trimmed

/-- The same from inside of blanks that are taken away. -/
def Trimming (offset : Nat) (cs : List Char) (es : List Edit) (ds : List Char) : Prop :=
  ∃ gap behind, cs = gap ++ behind ∧ (∀ c ∈ gap, isGap c = true) ∧
    Trimmed (offset + Text.width gap) behind es ds

namespace Trimming

theorem of_trimmed (h : Trimmed offset cs es ds) : Trimming offset cs es ds :=
  ⟨[], cs, rfl, nofun, h⟩

/-- Trimming from a character on that is no space or tab takes nothing away in front of it. -/
theorem trimmed (h : Trimming offset (c :: cs) es ds) (hc : isGap c = false) :
    Trimmed offset (c :: cs) es ds := by
  obtain ⟨gap, behind, e, hg, t⟩ := h
  cases gap with
  | nil => exact e ▸ t
  | cons d gap =>
      cases e
      rw [hg c List.mem_cons_self] at hc
      cases hc

/-- A character is kept, or it is a blank that is taken away. -/
theorem of_cons (h : Trimming offset (c :: cs) es ds) :
    (∃ ds', ds = c :: ds' ∧ Trimming (offset + c.utf8Size) cs es ds') ∨
      ∃ es', es' ⊆ es ∧ Trimming (offset + c.utf8Size) cs es' ds := by
  have inside {offset : Nat} {gap behind : List Char} {es : List Edit}
      (hg : ∀ d ∈ c :: gap, isGap d = true)
      (t : Trimmed (offset + Text.width (c :: gap)) behind es ds) :
      Trimming (offset + c.utf8Size) (gap ++ behind) es ds :=
    ⟨gap, behind, rfl, (List.forall_mem_cons.mp hg).2, by rwa [Nat.add_assoc]⟩
  obtain ⟨gap, behind, e, hg, t⟩ := h
  cases gap with
  | cons d gap =>
      cases e
      exact .inr ⟨es, List.Subset.refl es, inside hg t⟩
  | nil =>
      obtain rfl : c :: cs = behind := e
      generalize e : c :: cs = whole at t
      cases t with
      | nil => cases e
      | keep t =>
          cases e
          exact .inl ⟨_, rfl, of_trimmed t⟩
      | trim hne hg' he t =>
          obtain ⟨d, gap, rfl⟩ := List.exists_cons_of_ne_nil hne
          cases e
          exact .inr ⟨_, List.subset_cons_self _ _, inside hg' t⟩

end Trimming

/-- A place in a token. -/
def Token.holds (t : Token) (offset : Nat) : Bool := t.start ≤ offset && offset < t.stop

/-- A lexeme does not start with a blank. -/
theorem not_isGap_of_starts {l : Lexeme} {c : Char} (h : l.starts c = true) : isGap c = false := by
  have solid := Dsl.Lexeme.isSolid_of_starts h
  cases hg : isGap c with
  | false => rfl
  | true =>
      rw [Dsl.isSolid, isAsciiBlank_of_isGap hg] at solid
      cases solid

/-- There are blanks in string literals only. -/
theorem not_isGap_of_stands {l : Lexeme} (h : l.Stands cs) (hl : kindOf l ≠ .string) :
    ∀ c ∈ l.text, isGap c = false := by
  have names : ∀ c, Text.isNamePart c = true → isGap c = false := fun c hc =>
    Bool.eq_false_iff.mpr fun hg => absurd
      (Text.isBlank_of_isAsciiBlank (isAsciiBlank_of_isGap hg))
      (Bool.eq_false_iff.mp (Dsl.isBlank_of_isNamePart hc))
  have digits : ∀ c, c.isDigit = true → isGap c = false := fun c hc =>
    names c (Dsl.isNamePart_of_isDigit hc)
  cases l with
  | word w => exact fun c hc => names c (Dsl.isNamePart_of_isName h.1 c hc)
  | number negative whole places =>
      have point : ∀ c ∈ Lexeme.placesText places, isGap c = false := by
        cases places with
        | nil => exact nofun
        | cons d ds =>
            exact List.forall_mem_cons.mpr ⟨by decide, fun c hc => digits c (h.2.2.1 c hc)⟩
      have sign : ∀ c ∈ (if negative then ['-'] else []), isGap c = false := by
        cases negative with
        | false => exact List.forall_mem_nil _
        | true => exact List.forall_mem_singleton.mpr (by decide)
      exact List.forall_mem_append.mpr
        ⟨sign, List.forall_mem_append.mpr ⟨fun c hc => digits c (h.2.1 c hc), point⟩⟩
  | string body => exact absurd rfl hl
  | reference field =>
      refine List.forall_mem_cons.mpr ⟨by decide, List.forall_mem_cons.mpr ⟨by decide, ?_⟩⟩
      exact List.forall_mem_append.mpr
        ⟨fun c hc => names c (Dsl.isNamePart_of_isName h c hc),
          List.forall_mem_singleton.mpr (by decide)⟩
  | symbol s =>
      have gapless : ∀ s ∈ symbols, (s.all fun c => !isGap c) = true := by decide
      exact fun c hc => by simpa using List.all_eq_true.mp (gapless s h.1) c hc
  | char c =>
      have starts : (Lexeme.char c).starts c = true := by simp [Lexeme.starts, h.1]
      exact List.forall_mem_singleton.mpr (not_isGap_of_starts starts)

/-- **Trimming changes no lexeme and no record** outside of string literals. -/
theorem Tokenized.trimming (h : Tokenized n offset cs ts) (ht : Trimming offset cs es ds)
    (hs : ∀ t ∈ ts, t.kind = .string → ∀ e ∈ es, t.holds e.start = false) :
    Parallel [] n cs ds ∧ recordTexts ds = recordTexts cs := by
  induction h generalizing es ds with
  | nil =>
      obtain ⟨gap, behind, e, -, t⟩ := ht
      obtain ⟨rfl, rfl⟩ := List.append_eq_nil_iff.mp e.symm
      generalize e : [] = whole at t
      cases t with
      | nil => exact ⟨.finish rfl rfl, rfl⟩
      | keep t => cases e
      | trim hne hg he t => exact absurd (List.append_eq_nil_iff.mp e.symm).1 hne
  | @blank n offset c cs ts hb t ih =>
      have blank := Text.isBlank_of_isAsciiBlank hb
      have skipped := Dsl.skipTrivia_blank cs hb
      have hidden := Dsl.recordTexts_blank blank cs
      obtain ⟨ds', rfl, behind⟩ | ⟨es', sub, behind⟩ := ht.of_cons
      · obtain ⟨hp, hr⟩ := ih behind hs
        exact ⟨hp.congr skipped (Dsl.skipTrivia_blank ds' hb),
          by rw [Dsl.recordTexts_blank blank, hidden, hr]⟩
      · obtain ⟨hp, hr⟩ := ih behind fun t ht k e he => hs t ht k e (sub he)
        exact ⟨hp.congr skipped rfl, by rw [hidden, hr]⟩
  | @comment n offset body cs ts hb he t ih =>
      obtain ⟨_, rfl, line⟩ := (ht.trimmed (by decide)).of_cons (by decide)
      obtain ⟨kept, gap, es', ds', rfl, hg, rfl, sub, behind⟩ := line.of_line hb he
      have ends := behind.lineEnds he
      have onLine : OnLine kept := hb.of_append
      have blanks : ∀ c ∈ gap, Text.isBlank c = true := fun c hc =>
        Text.isBlank_of_isAsciiBlank (isAsciiBlank_of_isGap (hg c hc))
      rw [Nat.add_assoc, ← Text.width] at behind
      obtain ⟨hp, hr⟩ := ih (.of_trimmed behind) fun t ht k e he => hs t ht k e (sub he)
      refine ⟨hp.congr (Dsl.skipTrivia_ended hb he) (Dsl.skipTrivia_ended onLine ends), ?_⟩
      rw [Dsl.recordTexts_ended onLine ends, Dsl.recordTexts_ended hb he, hr,
        Dsl.recordOf?_append blanks]
  | @token n m offset l cs ts stands hn t ih =>
      obtain ⟨c, u, hc, starts⟩ := stands.exists_cons
      have trimmed : Trimmed offset (l.text ++ cs) es ds := by
        rw [hc, List.cons_append] at ht ⊢
        exact ht.trimmed (not_isGap_of_starts starts)
      -- only a string has gaps in it, and no edit is at a place in one
      have kept : ∃ ds', ds = l.text ++ ds' ∧
          Trimmed (offset + Text.width l.text) cs es ds' := by
        by_cases hk : kindOf l = .string
        · refine trimmed.of_untouched fun e he inside => ?_
          have outside := hs _ List.mem_cons_self hk e he
          simp only [Token.holds, Token.stop, tokenOf] at outside
          simp [inside.1, inside.2] at outside
        · exact trimmed.of_append (not_isGap_of_stands stands hk)
      obtain ⟨ds', rfl, behind⟩ := kept
      obtain ⟨hp, hr⟩ := ih (.of_trimmed behind) fun t ht => hs t (List.mem_cons_of_mem _ ht)
      have stands' := Stands.resume stands behind.resumes
      refine ⟨.lexeme stands.skipTrivia stands'.skipTrivia stands stands' hn hp, ?_⟩
      rw [stands.scans.recordTexts, stands.scans.recordTexts, hr]

/-! ### The findings about lines -/

/-- Every line ends with its line feed, the last one apart. -/
inductive Lined : List (List Char) → Prop where
  | nil : Lined []
  | last (line : List Char) : Lined [line]
  | line (body : List Char) {lines : List (List Char)} (t : Lined lines) :
      Lined ((body ++ ['\n']) :: lines)

/-- The lines of a text each end with their line feed, the last one apart. -/
theorem lined_splitLines (cs : List Char) : Lined (splitLines cs) := by
  induction cs with
  | nil => exact .nil
  | cons c cs ih =>
      rw [splitLines]
      split
      · subst c
        exact .line [] ih
      · split
        · exact .last _
        · rename_i line lines e
          rw [e] at ih
          cases ih with
          | last => exact .last _
          | line body t => exact .line (c :: body) t

/-- The lines of a text are the text. -/
theorem flatten_splitLines (cs : List Char) : (splitLines cs).flatten = cs := by
  induction cs with
  | nil => rfl
  | cons c cs ih =>
      rw [splitLines]
      split
      · exact congrArg (c :: ·) ih
      · split
        · rename_i e
          rw [e] at ih
          exact congrArg (c :: ·) ih
        · rename_i e
          rw [e] at ih
          exact congrArg (c :: ·) ih

/-- What is dropped from the end of a text consists of such characters. -/
theorem exists_dropEndWhile (inside : Char → Bool) (cs : List Char) :
    ∃ tail, cs = dropEndWhile inside cs ++ tail ∧ ∀ c ∈ tail, inside c = true := by
  refine ⟨(cs.reverse.takeWhile inside).reverse, ?_, fun c hc => ?_⟩
  · rw [dropEndWhile, ← List.reverse_append, List.takeWhile_append_dropWhile, List.reverse_reverse]
  · exact List.all_eq_true.mp List.all_takeWhile c (List.mem_reverse.mp hc)

theorem dropEndWhile_concat {inside : Char → Bool} (h : inside c = true) (cs : List Char) :
    dropEndWhile inside (cs ++ [c]) = dropEndWhile inside cs := by
  rw [dropEndWhile, List.reverse_concat, List.dropWhile_cons_of_pos h, dropEndWhile]

/-- A part in front of a trimmed text is kept. -/
theorem Trimmed.keeps (part : List Char) (h : Trimmed (offset + Text.width part) cs es ds) :
    Trimmed offset (part ++ cs) es (part ++ ds) := by
  induction part generalizing offset with
  | nil => exact h
  | cons c part ih => exact .keep (ih (by rwa [Text.width, ← Nat.add_assoc] at h))

/-- The finding about the end of a line takes away the blanks there. -/
theorem trimmed_checkLineEnd {line tail : List Char} (number : Nat)
    (he : ∀ c ∈ (tail ++ cs).head?, isLineEnd c = true)
    (t : Trimmed (offset + Text.width (line ++ tail)) cs es ds) : ∃ ds',
      Trimmed offset (line ++ tail ++ cs)
        (editsOf .trailingWhitespace (checkLineEnd number offset line) ++ es) ds' := by
  obtain ⟨gap, e, hg⟩ := exists_dropEndWhile isGap line
  have kept : dropEndWhile (fun c => c = ' ' || c = '\t') line = dropEndWhile isGap line := rfl
  rw [checkLineEnd, kept]
  generalize dropEndWhile isGap line = front at e
  subst e
  have behind : Trimmed (offset + Text.width (front ++ gap)) (tail ++ cs) es (tail ++ ds) :=
    Trimmed.keeps tail (by rwa [Nat.add_assoc, ← Text.width_append])
  rw [List.append_assoc _ tail]
  by_cases hne : gap = []
  · subst hne
    refine ⟨front ++ (tail ++ ds), ?_⟩
    rw [List.append_nil] at behind
    simpa [editsOf] using behind.keeps front
  · have shorter : front.length < (front ++ gap).length := by
      simpa [List.length_pos_iff] using hne
    rw [Text.width_append, ← Nat.add_assoc] at behind
    refine ⟨front ++ (tail ++ ds), ?_⟩
    simp only [shorter, if_true, editsOf]
    simpa [Finding.of, Nat.add_assoc] using (behind.trim hne hg he).keeps front

/-- **The findings about blanks at the ends of lines take those away.** -/
theorem exists_trimmed_checkLines {lines : List (List Char)} (h : Lined lines)
    (limit number offset : Nat) : ∃ ds, Trimmed offset lines.flatten
      (editsOf .trailingWhitespace (checkLines limit number offset lines)) ds := by
  have step {raw : List Char} {lines : List (List Char)} {ds : List Char} (number offset : Nat)
      (he : raw = lineContent raw → lines = [])
      (t : Trimmed (offset + Text.width raw) lines.flatten (editsOf .trailingWhitespace
        (checkLines limit (number + 1) (offset + Text.width raw) lines)) ds) :
      ∃ ds, Trimmed offset (raw :: lines).flatten (editsOf .trailingWhitespace
        (checkLines limit number offset (raw :: lines))) ds := by
    rw [checkLines, editsOf_append, editsOf_append,
      editsOf_from (from_checkLineLength _ _ _) (by decide), List.append_nil, List.flatten_cons]
    obtain ⟨tail, e, ht⟩ := exists_dropEndWhile isLineEnd raw
    have content : dropEndWhile isLineEnd raw = lineContent raw := rfl
    rw [content] at e
    generalize lineContent raw = line at e he
    subst e
    refine trimmed_checkLineEnd number (fun c hc => ?_) t
    cases tail with
    | nil =>
        rw [he (by simp)] at hc
        cases hc
    | cons d tail =>
        cases hc
        exact ht c List.mem_cons_self
  induction h generalizing number offset with
  | nil => exact ⟨[], .nil⟩
  | last line => exact step number offset (fun _ => rfl) .nil
  | @line body lines t ih =>
      obtain ⟨ds, t⟩ := ih (number + 1) (offset + Text.width (body ++ ['\n']))
      refine step number offset (fun e => ?_) t
      -- the line feed is no part of the line's content
      rw [lineContent, dropEndWhile_concat (by decide)] at e
      obtain ⟨tail, e', -⟩ := exists_dropEndWhile (fun c => c = '\n' || c = '\r') body
      have length := congrArg List.length e
      rw [List.length_append] at length
      rw [← e] at e'
      have longer := congrArg List.length e'
      simp at longer

/-! ### Fixed texts -/

/-- **Blanks at the ends of lines are insignificant** outside of string literals: with those taken
away that the linter finds, the text is read as before. -/
theorem parse_trimmed {text : String} {o : Option Rule} (h : Dsl.parse text = .ok o)
    (s : Settings) (schema : Option Schema)
    (hs : ∀ f ∈ lint s schema text, f.check = .trailingWhitespace → ∀ fix ∈ f.fix,
      ∀ t ∈ tokens text.toList, t.kind = .string → t.holds fix.edit.start = false) :
    Dsl.parse (applyFixes text ((lint s schema text).filter fun f => f.check = .trailingWhitespace)) =
      .ok o := by
  have perm := @perm_editsOf_lint s schema text .trailingWhitespace (by decide)
  rw [editsOf_from (from_checkKeywords _ _) (by decide), List.nil_append] at perm
  rw [Dsl.parse] at h ⊢
  split at perm
  · obtain ⟨ds, trimmed⟩ := exists_trimmed_checkLines (lined_splitLines text.toList)
      s.maxLineLength 1 0
    rw [flatten_splitLines] at trimmed
    obtain ⟨q, hq⟩ := Dsl.exists_readStructure h
    rw [applyFixes_of_splices perm trimmed.splices, String.toList_ofList]
    obtain ⟨parallel, records⟩ := (tokenized_of_readStructure hq).trimming (.of_trimmed trimmed)
      fun t ht hk e he => by
        obtain ⟨f, hf, hfix⟩ := List.mem_filterMap.mp (perm.mem_iff.mpr he)
        obtain ⟨fix, wanted, rfl⟩ := Option.map_eq_some_iff.mp hfix
        obtain ⟨hf, hc⟩ := List.mem_filter.mp hf
        exact hs f hf (of_decide_eq_true hc) fix wanted t ht hk
    exact Dsl.read_of_parallel h parallel records
  · rw [applyFixes_of_splices perm .done, String.toList_ofList]
    exact h

/-- Blanks behind a member, in a comment, in front of a carriage return and on a line of their own;
those in a string literal end no line. -/
theorem parse_trimmed_lines :
    let text := "(AND a == \"x \t\\n\", \n\t\n b == 1 # c \t\n) OR NOT c <= 2 \r\n "
    let found := lint .standard none text
    (∃ r, Dsl.parse text = .ok (some r) ∧
      (∀ f ∈ found, f.check = .trailingWhitespace → ∀ fix ∈ f.fix,
        ∀ t ∈ tokens text.toList, t.kind = .string → t.holds fix.edit.start = false) ∧
      Dsl.parse (applyFixes text (found.filter fun f => f.check = .trailingWhitespace)) =
        .ok (some r)) ∧
    applyFixes text (found.filter fun f => f.check = .trailingWhitespace) =
      "(AND a == \"x \t\\n\",\n\n b == 1 # c\n) OR NOT c <= 2\r\n" := by
  have outside : ∀ f ∈ lint .standard none
      "(AND a == \"x \t\\n\", \n\t\n b == 1 # c \t\n) OR NOT c <= 2 \r\n ",
      f.check = .trailingWhitespace → ∀ fix ∈ f.fix, ∀ t ∈ tokens
        "(AND a == \"x \t\\n\", \n\t\n b == 1 # c \t\n) OR NOT c <= 2 \r\n ".toList,
        t.kind = .string → t.holds fix.edit.start = false := by decide +kernel
  exact ⟨⟨_, rfl, outside, parse_trimmed rfl .standard none outside⟩, by decide +kernel⟩

/-- A string literal may go on over the end of a line; the blanks there are part of its value. -/
theorem parse_trimmed_literal :
    let text := "a == \"x \n\""
    ∃ r, Dsl.parse text = .ok (some r) ∧
      Dsl.parse (applyFixes text
        ((lint .standard none text).filter fun f => f.check = .trailingWhitespace)) ≠
          .ok (some r) := by
  have fixed : applyFixes "a == \"x \n\"" ((lint .standard none "a == \"x \n\"").filter
      fun f => f.check = .trailingWhitespace) = "a == \"x\n\"" := by decide +kernel
  have before : Dsl.parse "a == \"x \n\"" =
      .ok (some (.atom (.condition ⟨"a", .equals, .string "x \n", .literal⟩) none)) := rfl
  have after : Dsl.parse "a == \"x\n\"" =
      .ok (some (.atom (.condition ⟨"a", .equals, .string "x\n", .literal⟩) none)) := rfl
  refine ⟨_, before, fun h => ?_⟩
  rw [fixed, after] at h
  simp at h

end Rulebook.Lint
