import Rulebook.Proofs.Dsl.Continued

/-!
# Rulebook — Proofs — Dsl — Skipped

The comments that the grammar skips.  A reader stands at a cut of the text, and comments are skipped
on its way there (`Passed`).  Whatever way it takes through the whole text, these are the comments
of the text (`passed_nil_iff`), which are found by looking for quotes and marks only.

A comment that is found goes on to the line feed at the end of its line, one that is skipped to a
carriage return in front of that, if there is one (`Comment.chomp`).
-/

namespace Rulebook.Dsl

variable {body cs rest : List Char}

/-- A comment without the carriage return at its end, if there is one. -/
def Comment.chomp (c : Comment) : Comment :=
  { c with text := if c.text.getLast? = some '\r' then c.text.dropLast else c.text }

/-- Whether a byte offset falls in a comment, behind its mark. -/
def Comment.holds (c : Comment) (offset : Nat) : Bool :=
  c.offset < offset && offset < c.offset + Text.width ('#' :: c.text)

/-- The comments of a text, whose first character has the given offset, without carriage returns at
their ends. -/
def lineComments (offset : Nat) (cs : List Char) : List Comment :=
  (commentsFrom offset cs).map Comment.chomp

/-! ### What is skipped -/

mutual

/-- The comments among the blanks and comments that a text starts with. -/
def skipped (offset : Nat) : List Char → List Comment
  | [] => []
  | c :: cs =>
    if Text.isAsciiBlank c then skipped (offset + c.utf8Size) cs
    else if c = '#' && lineCloses cs then
      ⟨(splitLine cs).1, offset⟩ :: skippedInComment (offset + 1) cs
    else []

/-- The same from inside a comment. -/
def skippedInComment (offset : Nat) : List Char → List Comment
  | [] => []
  | c :: cs =>
    if c = '\n' then skipped (offset + 1) cs else skippedInComment (offset + c.utf8Size) cs

end

theorem skipped_blank {c : Char} (h : Text.isAsciiBlank c = true) (offset : Nat) (cs : List Char) :
    skipped offset (c :: cs) = skipped (offset + c.utf8Size) cs := by
  rw [skipped, if_pos h]

theorem skippedInComment_append (h : OnLine body) (offset : Nat) (cs : List Char) :
    skippedInComment offset (body ++ cs) = skippedInComment (offset + Text.width body) cs := by
  induction body generalizing offset with
  | nil => rfl
  | cons c body ih =>
      obtain ⟨⟨hn, -⟩, hb⟩ := List.forall_mem_cons.mp h
      rw [List.cons_append, skippedInComment, if_neg hn, ih hb, Text.width, Nat.add_assoc]

/-- Up to the end of its line there is nothing but the comment. -/
theorem skippedInComment_ended (h : LineEnds cs) (offset : Nat) :
    skippedInComment offset cs = skipped offset cs := by
  obtain rfl | ⟨t, rfl | rfl⟩ := h
  · rfl
  · rw [skippedInComment, if_pos rfl, skipped_blank (by decide)]
    rfl
  · rw [skippedInComment, if_neg (by decide), skippedInComment, if_pos rfl,
      skipped_blank (by decide), skipped_blank (by decide)]
    rfl

theorem skipped_ended (hb : OnLine body) (he : LineEnds cs) (offset : Nat) :
    skipped offset ('#' :: (body ++ cs)) =
      ⟨body, offset⟩ :: skipped (offset + Text.width ('#' :: body)) cs := by
  have line : lineCloses (body ++ cs) = true := by
    obtain rfl | ⟨t, rfl | rfl⟩ := he
    · rw [List.append_nil]
      exact lineCloses_of_onLine hb
    · exact lineCloses_append hb t
    · exact lineCloses_return hb t
  rw [skipped, if_neg (by decide), if_pos (by rw [line]; rfl), splitLine_append hb he,
    skippedInComment_append hb, skippedInComment_ended he, Text.width, Nat.add_assoc]
  rfl

/-! ### What is found -/

theorem lineComments_of_ne {c : Char} (hq : c ≠ '"') (hc : c ≠ '#') (offset : Nat)
    (cs : List Char) : lineComments offset (c :: cs) = lineComments (offset + c.utf8Size) cs := by
  rw [lineComments, commentsFrom, if_neg hq, if_neg hc]
  rfl

theorem lineComments_quiet {part : List Char} (h : Quiet part) (offset : Nat) (cs : List Char) :
    lineComments offset (part ++ cs) = lineComments (offset + Text.width part) cs := by
  induction part generalizing offset with
  | nil => rfl
  | cons c part ih =>
      obtain ⟨⟨hq, hc⟩, hp⟩ := List.forall_mem_cons.mp h
      rw [List.cons_append, lineComments_of_ne hq hc, ih hp, Text.width, Nat.add_assoc]

theorem lineComments_blank {c : Char} (h : Text.isAsciiBlank c = true) (offset : Nat)
    (cs : List Char) : lineComments offset (c :: cs) = lineComments (offset + c.utf8Size) cs := by
  have few : c ∉ ['"', '#'] := Text.not_mem_of_class (p := Text.isAsciiBlank) (by decide) h
  simp only [List.mem_cons, List.not_mem_nil, or_false, not_or] at few
  exact lineComments_of_ne few.1 few.2 offset cs

/-- There is no comment in a string literal. -/
theorem commentsInString_of_stringRest {s : List Char} (h : stringRest cs = .ok s rest)
    (offset : Nat) : ∃ body, cs = body ++ rest ∧
      commentsInString offset cs = commentsFrom (offset + Text.width body) rest := by
  fun_induction stringRest cs generalizing s offset with
  | case1 => cases h
  | case2 cs =>
      cases h
      exact ⟨['"'], rfl, by rw [commentsInString_of_ne (by decide), if_pos rfl]; rfl⟩
  | case3 => cases h
  | case4 e cs s' rest' hs ih =>
      cases h
      obtain ⟨body, rfl, hb⟩ := ih hs (offset + 1 + e.utf8Size)
      refine ⟨'\\' :: e :: body, rfl, ?_⟩
      have width : Text.width ('\\' :: e :: body) = 1 + (e.utf8Size + Text.width body) := rfl
      rw [commentsInString, hb, width, Nat.add_assoc, Nat.add_assoc]
  | case5 e cs f rest' hs => cases h
  | case6 c cs quote last escape s' rest' hs ih =>
      cases h
      have plain := Text.ne_backslash last escape
      obtain ⟨body, rfl, hb⟩ := ih hs (offset + c.utf8Size)
      refine ⟨c :: body, rfl, ?_⟩
      rw [commentsInString_of_ne plain, if_neg quote, hb, Text.width, Nat.add_assoc]
  | case7 c cs quote last escape f rest' hs => cases h

theorem lineComments_string {s : List Char} (h : stringRest cs = .ok s rest) (offset : Nat) :
    ∃ body, cs = body ++ rest ∧
      lineComments offset ('"' :: cs) = lineComments (offset + Text.width ('"' :: body)) rest := by
  obtain ⟨body, rfl, hb⟩ := commentsInString_of_stringRest h (offset + 1)
  refine ⟨body, rfl, ?_⟩
  rw [lineComments, commentsFrom, if_pos rfl, hb, Text.width, Nat.add_assoc]
  rfl

theorem commentsInComment_append (h : OnLine body) (offset : Nat) (cs : List Char) :
    commentsInComment offset (body ++ cs) = commentsInComment (offset + Text.width body) cs := by
  induction body generalizing offset with
  | nil => rfl
  | cons c body ih =>
      obtain ⟨⟨hn, -⟩, hb⟩ := List.forall_mem_cons.mp h
      rw [List.cons_append, commentsInComment, if_neg hn, ih hb, Text.width, Nat.add_assoc]

theorem commentsInComment_ended (h : LineEnds cs) (offset : Nat) :
    commentsInComment offset cs = commentsFrom offset cs := by
  obtain rfl | ⟨t, rfl | rfl⟩ := h
  · rfl
  · rfl
  · rfl

theorem chomp_onLine (h : OnLine body) (offset : Nat) :
    Comment.chomp ⟨body, offset⟩ = ⟨body, offset⟩ := by
  have last : body.getLast? ≠ some '\r' := fun e => (h _ (List.mem_of_getLast? e)).2 rfl
  rw [Comment.chomp, if_neg last]

/-- A line is found with the carriage return at its end. -/
theorem chomp_line (hb : OnLine body) (he : LineEnds cs) (offset : Nat) :
    Comment.chomp ⟨(body ++ cs).takeWhile (· != '\n'), offset⟩ = ⟨body, offset⟩ := by
  have inside (part : List Char) (hp : '\n' ∉ part) (t : List Char) :
      (part ++ '\n' :: t).takeWhile (· != '\n') = part :=
    Text.takeWhile_run (bne_of_notMem hp) (Text.startsOutside_cons (by decide))
  obtain rfl | ⟨t, rfl | rfl⟩ := he
  · rw [Text.takeWhile_run (bne_of_notMem hb.not_mem) Text.startsOutside_nil, chomp_onLine hb]
  · rw [inside body hb.not_mem, chomp_onLine hb]
  · have line : body ++ '\r' :: '\n' :: t = (body ++ ['\r']) ++ '\n' :: t := by simp
    rw [line, inside _ (by simp [hb.not_mem])]
    simp [Comment.chomp]

/-- A comment is found with the rest of its line. -/
theorem lineComments_ended (hb : OnLine body) (he : LineEnds cs) (offset : Nat) :
    lineComments offset ('#' :: (body ++ cs)) =
      ⟨body, offset⟩ :: lineComments (offset + Text.width ('#' :: body)) cs := by
  rw [lineComments, commentsFrom, if_neg (by decide), if_pos rfl, List.map_cons, chomp_line hb he,
    commentsInComment_append hb, commentsInComment_ended he, Text.width, Nat.add_assoc]
  rfl

/-- There is no comment in a lexeme. -/
theorem lineComments_lexeme {l : Lexeme} (h : l.Stands rest) (offset : Nat) :
    lineComments offset (l.text ++ rest) = lineComments (offset + Text.width l.text) rest := by
  cases l with
  | string body =>
      obtain ⟨s, hs⟩ := h
      obtain ⟨body', e, hb⟩ := lineComments_string (hs rest) offset
      obtain rfl := List.append_cancel_right e
      exact hb
  | _ => exact lineComments_quiet (h.quiet nofun) offset rest

/-! ### The way of a reader -/

/-- **What is skipped is what is found** up to where the reader goes on. -/
theorem exists_skipped (offset : Nat) (cs : List Char) : ∃ gap, cs = gap ++ skipTrivia cs ∧
    lineComments offset cs =
      skipped offset cs ++ lineComments (offset + Text.width gap) (skipTrivia cs) := by
  -- a comment is skipped in one step, so that the induction is on the length
  induction hl : cs.length using Nat.strong_induction_on generalizing cs offset with
  | _ len ih =>
      subst hl
      cases cs with
      | nil => exact ⟨[], by rw [skipTrivia]; rfl, by rw [skipTrivia]; rfl⟩
      | cons c cs =>
          cases hb : Text.isAsciiBlank c with
          | true =>
              obtain ⟨gap, e, found⟩ := ih _ (Nat.lt_succ_self _) (offset + c.utf8Size) cs rfl
              rw [skipTrivia_blank cs hb, lineComments_blank hb, skipped_blank hb]
              refine ⟨c :: gap, congrArg (c :: ·) e, ?_⟩
              rw [found, Text.width, Nat.add_assoc]
          | false =>
              by_cases mark : c = '#' ∧ lineCloses cs = true
              · obtain ⟨rfl, line⟩ := mark
                obtain ⟨body, rest, rfl, onLine, ends⟩ := exists_line line
                have shorter : rest.length < ('#' :: (body ++ rest)).length := by
                  rw [List.length_cons, List.length_append]
                  omega
                obtain ⟨gap, e, found⟩ :=
                  ih _ shorter (offset + Text.width ('#' :: body)) rest rfl
                rw [skipTrivia_ended onLine ends, lineComments_ended onLine ends,
                  skipped_ended onLine ends]
                refine ⟨'#' :: body ++ gap, ?_, ?_⟩
                · rw [List.append_assoc, ← e]
                  rfl
                · rw [found, Text.width_append, ← Nat.add_assoc]
                  rfl
              · have here : skipTrivia (c :: cs) = c :: cs := by
                  rw [skipTrivia, if_neg (by rw [hb]; decide), if_neg (by simpa using mark)]
                have none : skipped offset (c :: cs) = [] := by
                  rw [skipped, if_neg (by rw [hb]; decide), if_neg (by simpa using mark)]
                rw [here, none]
                exact ⟨[], rfl, rfl⟩

/-- Where a reader of the text may stand, as in `Cut`, and the comments that it has skipped on its
way there. -/
inductive Passed (text : List Char) : List Comment → List Char → Prop where
  | whole : Passed text [] text
  | trivia {found : List Comment} {cs : List Char} (h : Passed text found cs) :
      Passed text (found ++ skipped (offsetOf text cs) cs) (skipTrivia cs)
  | name {found : List Comment} {c : Char} {cs : List Char} (h : Passed text found (c :: cs))
      (hc : Text.isNameStart c = true) : Passed text found (cs.dropWhile Text.isNamePart)
  | digits {found : List Comment} {c : Char} {cs : List Char} (h : Passed text found (c :: cs))
      (hc : c.isDigit = true) : Passed text found (cs.dropWhile Char.isDigit)
  | string {found : List Comment} {cs s rest : List Char} (h : Passed text found ('"' :: cs))
      (hs : stringRest cs = .ok s rest) : Passed text found rest
  | reference {found : List Comment} {field rest : List Char}
      (h : Passed text found ('$' :: '\x7b' :: (field ++ '\x7d' :: rest)))
      (hf : Text.isName field = true) : Passed text found rest
  | char {found : List Comment} {c : Char} {cs : List Char} (h : Passed text found (c :: cs))
      (hc : isSymbol c = true ∨ c = '(' ∨ c = ')') : Passed text found cs

/-- A reader skips some comments on its way to each cut of the text. -/
theorem exists_passed {text : List Char} {n : Nat} (h : Cut text n cs) :
    ∃ found, Passed text found cs := by
  induction h with
  | whole => exact ⟨[], .whole⟩
  | trivia _ ih => exact ih.imp' _ fun _ => .trivia
  | name _ hc ih => exact ih.imp fun _ h => h.name hc
  | digits _ hc ih => exact ih.imp fun _ h => h.digits hc
  | string _ hs ih => exact ih.imp fun _ h => h.string hs
  | reference _ hf ih => exact ih.imp fun _ h => h.reference hf
  | symbol _ hc ih => exact ih.imp fun _ h => h.char (.inl hc)
  | opening _ ih => exact ih.imp fun _ h => h.char (.inr (.inl rfl))
  | closing _ ih => exact ih.imp fun _ h => h.char (.inr (.inr rfl))

/-- **The comments of a text are those that a reader has skipped**, and those of what is left. -/
theorem Passed.lineComments {text : List Char} {found : List Comment} (h : Passed text found cs) :
    ∃ front, text = front ++ cs ∧
      Dsl.lineComments 0 text = found ++ Dsl.lineComments (Text.width front) cs := by
  -- what is read is a part of the text without quotes and marks
  have pass {found : List Comment} {cs : List Char} (part : List Char) (hp : Quiet part)
      (ih : ∃ front, text = front ++ (part ++ cs) ∧ Dsl.lineComments 0 text =
        found ++ Dsl.lineComments (Text.width front) (part ++ cs)) :
      ∃ front, text = front ++ cs ∧
        Dsl.lineComments 0 text = found ++ Dsl.lineComments (Text.width front) cs := by
    obtain ⟨front, e, hf⟩ := ih
    refine ⟨front ++ part, by rw [e, List.append_assoc], ?_⟩
    rw [hf, lineComments_quiet hp, Text.width_append]
  induction h with
  | whole => exact ⟨[], rfl, rfl⟩
  | @trivia found cs _ ih =>
      obtain ⟨front, e, hf⟩ := ih
      have here : offsetOf text cs = Text.width front := by
        rw [offsetOf, e, Text.width_append, Nat.add_sub_cancel]
      obtain ⟨gap, hg, hs⟩ := exists_skipped (Text.width front) cs
      refine ⟨front ++ gap, by rw [e, List.append_assoc, ← hg], ?_⟩
      rw [hf, hs, here, Text.width_append, List.append_assoc]
  | @name found c cs _ hc ih =>
      have name : Text.isName (c :: cs.takeWhile Text.isNamePart) = true :=
        Bool.and_eq_true_iff.mpr ⟨hc, List.all_takeWhile⟩
      refine pass _ (quiet_word name) ?_
      rwa [List.cons_append, List.takeWhile_append_dropWhile]
  | @digits found c cs _ hc ih =>
      have digits : ∀ d ∈ c :: cs.takeWhile Char.isDigit, d.isDigit = true :=
        List.forall_mem_cons.mpr ⟨hc, fun d hd => List.all_eq_true.mp List.all_takeWhile d hd⟩
      refine pass _ (quiet_digits digits) ?_
      rwa [List.cons_append, List.takeWhile_append_dropWhile]
  | @string found cs s rest _ hs ih =>
      obtain ⟨front, e, hf⟩ := ih
      obtain ⟨body, rfl, hb⟩ := lineComments_string hs (Text.width front)
      refine ⟨front ++ '"' :: body, by rw [e, List.append_assoc]; rfl, ?_⟩
      rw [hf, hb, Text.width_append]
  | @reference found field rest _ hf ih =>
      have marks : Quiet ['$', '\x7b'] := by decide
      have close : Quiet ['\x7d'] := by decide
      refine pass _ (marks.append ((quiet_word hf).append close)) ?_
      simpa using ih
  | @char found c cs _ hc ih =>
      refine pass [c] ?_ ih
      obtain hc | rfl | rfl := hc
      · have quiet : symbolChars.all (fun c => c != '"' && c != '#') = true := by decide
        have outside := List.all_eq_true.mp quiet c (List.contains_iff_mem.mp hc)
        simpa [Quiet] using outside
      · decide
      · decide

/-- **Whatever way a reader takes through an accepted text, it skips the comments of the text.** -/
theorem passed_nil_iff {text : List Char} {o : Option Rule} (h : readStructure text = .ok o)
    (found : List Comment) : Passed text found [] ↔ found = Dsl.lineComments 0 text := by
  have same {found : List Comment} (hp : Passed text found []) : found = Dsl.lineComments 0 text := by
    obtain ⟨front, -, hf⟩ := hp.lineComments
    rw [hf]
    exact (List.append_nil _).symm
  obtain ⟨there, hp⟩ := exists_passed (cut_of_readStructure h)
  exact ⟨same, fun e => by rwa [e, ← same hp]⟩

end Rulebook.Dsl
