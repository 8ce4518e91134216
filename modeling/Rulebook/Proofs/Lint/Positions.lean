import Rulebook.Proofs.Lint.Coverage
import Rulebook.Proofs.Lint.Trimming

/-!
# Rulebook — Proofs — Lint — Positions

Places in a text, as offsets and as lines and columns.  Along the boundaries between characters the
line and the column go up with the offset (`Text.before_locate`), so that a finding's place says
which part of the text it is about.  A finding with a fix stands where the edit starts (`Placed`).
For findings about keywords the place is that of the offset; for those about the ends of lines it is
counted line by line (`placed_checkLines`), which comes to the same.
-/

namespace Rulebook

/-! ### Places -/

namespace Location

variable {l m o : Location}

/-- The place behind a text that starts at a place. -/
def after (l : Location) (cs : List Char) : Location := cs.foldl next l

/-- The place behind two parts is the place behind the second one, from behind the first one on. -/
theorem after_append (l : Location) (a b : List Char) : l.after (a ++ b) = (l.after a).after b :=
  List.foldl_append

/-- One place is before another on an earlier line, or further left on the same one. -/
theorem before_iff :
    l.before m = true ↔ l.line < m.line ∨ l.line = m.line ∧ l.column < m.column := by
  simp [before]

theorem before_trans (h : l.before m = true) (h' : m.before o = true) : l.before o = true := by
  rw [before_iff] at *
  omega

theorem not_before_self (l : Location) : ¬ l.before l = true := by
  rw [before_iff]
  omega

/-- Every character leads further on. -/
theorem before_next (l : Location) (c : Char) : l.before (l.next c) = true := by
  rw [before_iff, next]
  split
  · exact .inl (Nat.lt_succ_self _)
  · exact .inr ⟨rfl, Nat.lt_succ_self _⟩

/-- Every text with characters leads further on. -/
theorem before_after (l : Location) {cs : List Char} (h : cs ≠ []) :
    l.before (l.after cs) = true := by
  induction cs generalizing l with
  | nil => exact absurd rfl h
  | cons c cs ih =>
      cases cs with
      | nil => exact before_next l c
      | cons d cs => exact before_trans (before_next l c) (ih (l.next c) (List.cons_ne_nil d cs))

/-- On a line only the column goes up. -/
theorem after_of_not_mem {cs : List Char} (h : '\n' ∉ cs) :
    l.after cs = ⟨l.line, l.column + cs.length⟩ := by
  induction cs generalizing l with
  | nil => rfl
  | cons c cs ih =>
      obtain ⟨hc, hcs⟩ := not_or.mp (mt List.mem_cons.mpr h)
      have step : l.next c = ⟨l.line, l.column + 1⟩ := if_neg (Ne.symm hc)
      rw [after, List.foldl_cons, step]
      refine (ih hcs).trans ?_
      rw [List.length_cons, Nat.add_assoc, Nat.add_comm 1]

/-- A line feed starts a line. -/
theorem after_line {body : List Char} (h : '\n' ∉ body) :
    l.after (body ++ ['\n']) = ⟨l.line + 1, 1⟩ := by
  rw [after_append, after_of_not_mem h]
  rfl

end Location

namespace Text

variable {text : List Char} {a b : Nat}

/-- The place of an offset is the one behind the characters in front of it. -/
theorem locate_append (front cs : List Char) :
    locate (front ++ cs) (width front) = Location.start.after front := by
  have general (l : Location) : locateFrom l (front ++ cs) (width front) = l.after front := by
    induction front generalizing l with
    | nil =>
        cases cs with
        | nil => rfl
        | cons c cs => exact if_pos c.utf8Size_pos
    | cons c front ih =>
        rw [List.cons_append, locateFrom, width, if_neg (by omega), Nat.add_sub_cancel_left]
        exact ih (l.next c)
  exact general .start

/-- **Places go up with the offsets**, where these are between characters. -/
theorem before_locate (ha : isBoundary text a = true) (hb : isBoundary text b = true)
    (h : a < b) : (locate text a).before (locate text b) = true := by
  obtain ⟨front, cs, rfl, rfl⟩ := exists_of_isBoundary ha
  obtain ⟨part, behind, rfl, rfl⟩ := exists_cut hb (Nat.le_of_lt h)
  have nonempty : part ≠ [] := by
    rintro rfl
    simp at h
  have later := locate_append (front ++ part) behind
  rw [List.append_assoc] at later
  rw [locate_append, later, Location.after_append]
  exact Location.before_after _ nonempty

/-- Different offsets have different places. -/
theorem eq_of_locate_eq (ha : isBoundary text a = true) (hb : isBoundary text b = true)
    (h : locate text a = locate text b) : a = b := by
  rcases Nat.lt_trichotomy a b with less | same | more
  · exact absurd (h ▸ before_locate ha hb less) (Location.not_before_self _)
  · exact same
  · exact absurd (h ▸ before_locate hb ha more) (Location.not_before_self _)

end Text

namespace Lint

/-! ### Findings with a fix -/

/-- The finding has a fix, whose edit replaces some characters of the text and starts at the place
of the finding. -/
def Finding.Placed (f : Finding) (text : List Char) : Prop :=
  ∃ fix, f.fix = some fix ∧ fix.edit.start < fix.edit.stop ∧ fix.edit.stop ≤ Text.width text ∧
    Text.isBoundary text fix.edit.start = true ∧ Text.isBoundary text fix.edit.stop = true ∧
    Text.locate text fix.edit.start = f.location

variable {text : List Char} {check : Check} {message : String} {fix : Fix}

/-- A finding at the start of its edit is placed, if the edit replaces some characters. -/
theorem placed_of (hs : Text.isBoundary text fix.edit.start = true)
    (ht : Text.isBoundary text fix.edit.stop = true) (h : fix.edit.start < fix.edit.stop) :
    (Finding.of check (Text.locate text fix.edit.start) message (some fix)).Placed text :=
  ⟨fix, rfl, h, Text.le_width_of_isBoundary ht, hs, ht, rfl⟩

/-! ### Keywords -/

/-- A token that takes some characters of the text. -/
structure Token.Bounded (t : Token) (text : List Char) : Prop where
  start : Text.isBoundary text t.start = true
  stop : Text.isBoundary text t.stop = true
  ordered : t.start < t.stop

/-- The tokens of a text take some of its characters. -/
theorem bounded_of_mem_tokens {t : Token} (ht : t ∈ tokens text) : t.Bounded text := by
  obtain ⟨hne, slice⟩ := slice?_of_mem_tokens ht
  rw [Text.slice?] at slice
  split at slice
  · rename_i bounds
    rw [Bool.and_eq_true, Bool.and_eq_true] at bounds
    exact ⟨bounds.1.2, bounds.2, Nat.lt_add_of_pos_right (Text.width_pos hne)⟩
  · cases slice

/-- A finding about a keyword in lower case is placed. -/
theorem placed_checkCase {t : Token} (ht : t.Bounded text) (op : Connective) :
    ∀ f ∈ checkCase text t op, f.Placed text := by
  rw [checkCase]
  split
  · exact List.forall_mem_nil _
  · exact List.forall_mem_singleton.mpr (placed_of ht.start ht.stop ht.ordered)

/-- Two `NOT` are taken away up to what follows them. -/
theorem placed_checkNegation {t : Token} {later : List Token} (ht : t.Bounded text)
    (hl : ∀ u ∈ later, u.Bounded text) (apart : ∀ u ∈ later, t.stop ≤ u.start)
    (previous : Option Token) (op : Connective) :
    ∀ f ∈ checkNegation text previous t op later, f.Placed text := by
  rw [checkNegation]
  dsimp only
  split
  · refine List.forall_mem_singleton.mpr ?_
    have order := ht.ordered
    cases behind : later.tail.head? with
    | none =>
        have whole := Text.le_width_of_isBoundary ht.stop
        exact placed_of ht.start (Text.isBoundary_width text) (Nat.lt_of_lt_of_le order whole)
    | some u =>
        have hu : u ∈ later := List.mem_of_mem_tail (List.mem_of_mem_head? behind)
        exact placed_of ht.start (hl u hu).start (Nat.lt_of_lt_of_le order (apart u hu))
  · exact List.forall_mem_nil _

/-- A finding about keywords is placed. -/
theorem placed_checkKeywords {ts : List Token} (hb : ∀ t ∈ ts, t.Bounded text)
    (apart : ts.Pairwise fun t u => t.stop ≤ u.start) (previous : Option Token) :
    ∀ f ∈ checkKeywords text previous ts, f.Placed text := by
  induction ts generalizing previous with
  | nil => exact List.forall_mem_nil _
  | cons t ts ih =>
      obtain ⟨ht, hts⟩ := List.forall_mem_cons.mp hb
      obtain ⟨behind, apart⟩ := List.pairwise_cons.mp apart
      refine List.forall_mem_append.mpr ⟨?_, ih hts apart (some t)⟩
      split
      · exact List.forall_mem_nil _
      · split
        · exact List.forall_mem_nil _
        · exact List.forall_mem_append.mpr
            ⟨placed_checkCase ht _, placed_checkNegation ht hts behind previous _⟩

/-! ### Lines -/

/-- There is no line feed in a line, apart from the one that ends it. -/
def IsLine (raw : List Char) : Prop :=
  ∃ body, '\n' ∉ body ∧ (raw = body ∨ raw = body ++ ['\n'])

/-- The lines of a text are lines. -/
theorem isLine_of_mem_splitLines {cs raw : List Char} (h : raw ∈ splitLines cs) : IsLine raw := by
  induction cs generalizing raw with
  | nil => cases h
  | cons c cs ih =>
      rw [splitLines] at h
      split at h
      · subst c
        rcases List.mem_cons.mp h with rfl | h
        · exact ⟨[], List.not_mem_nil, .inr rfl⟩
        · exact ih h
      · rename_i hc
        split at h
        · obtain rfl := List.mem_singleton.mp h
          exact ⟨[c], by simpa [eq_comm] using hc, .inl rfl⟩
        · rename_i line lines e
          rw [e] at ih
          rcases List.mem_cons.mp h with rfl | h
          · obtain ⟨body, hb, e⟩ := ih List.mem_cons_self
            refine ⟨c :: body, by simpa [eq_comm] using ⟨hc, hb⟩, ?_⟩
            exact e.imp (congrArg (c :: ·)) (congrArg (c :: ·))
          · exact ih (List.mem_cons_of_mem _ h)

/-- There is no line feed in the content of a line. -/
theorem not_mem_lineContent {raw : List Char} (h : IsLine raw) : '\n' ∉ lineContent raw := by
  obtain ⟨body, hb, h⟩ := h
  have content : lineContent raw = dropEndWhile (fun c => c = '\n' || c = '\r') body := by
    obtain e | e := h
    · rw [e, lineContent]
    · rw [e]
      exact dropEndWhile_concat (by decide) body
  obtain ⟨tail, e, -⟩ := exists_dropEndWhile (fun c => c = '\n' || c = '\r') body
  rw [e] at hb
  rw [content]
  exact fun inside => hb (List.mem_append_left _ inside)

/-- The column of the blanks at the end of a line is the one at which they stand in the text. -/
theorem placed_checkLineEnd {front line rest : List Char} {number : Nat}
    (hf : Location.start.after front = ⟨number, 1⟩) (hl : '\n' ∉ line) :
    ∀ f ∈ checkLineEnd number (Text.width front) line, f.Placed (front ++ (line ++ rest)) := by
  obtain ⟨gap, e, -⟩ := exists_dropEndWhile isGap line
  have same : dropEndWhile (fun c => c = ' ' || c = '\t') line = dropEndWhile isGap line := rfl
  rw [checkLineEnd, same]
  generalize dropEndWhile isGap line = kept at e
  subst e
  split
  · rename_i shorter
    have nonempty : gap ≠ [] := by
      rintro rfl
      simp at shorter
    have positive := Text.width_pos nonempty
    have whole : front ++ (kept ++ gap ++ rest) = front ++ kept ++ (gap ++ rest) := by simp
    have start := Text.isBoundary_append (front ++ kept) (gap ++ rest)
    have stop := Text.isBoundary_append (front ++ (kept ++ gap)) rest
    have place : Text.locate (front ++ kept ++ (gap ++ rest)) (Text.width (front ++ kept)) =
        ⟨number, kept.length + 1⟩ := by
      rw [Text.locate_append, Location.after_append, hf,
        Location.after_of_not_mem fun inside => hl (List.mem_append_left _ inside), Nat.add_comm]
    rw [List.append_assoc] at stop
    rw [← whole] at start place
    rw [Text.width_append] at start stop place
    rw [← place]
    refine List.forall_mem_singleton.mpr (placed_of start stop ?_)
    dsimp only
    rw [Text.width_append]
    omega
  · exact List.forall_mem_nil _

/-- The findings about one line. -/
theorem placed_checkLine {front raw : List Char} {number : Nat}
    (hf : Location.start.after front = ⟨number, 1⟩) (hr : IsLine raw) (limit : Nat)
    (rest : List Char) :
    ∀ f ∈ checkLineEnd number (Text.width front) (lineContent raw) ++
      checkLineLength limit number (lineContent raw), f.check = .trailingWhitespace →
        f.Placed (front ++ (raw ++ rest)) := by
  obtain ⟨tail, e, -⟩ := exists_dropEndWhile (fun c => c = '\n' || c = '\r') raw
  have whole : raw ++ rest = lineContent raw ++ (tail ++ rest) := by
    rw [← List.append_assoc, lineContent, ← e]
  rw [whole]
  refine List.forall_mem_append.mpr ⟨fun f hm _ => ?_, fun f hm hc => ?_⟩
  · exact placed_checkLineEnd hf (not_mem_lineContent hr) f hm
  · have other := (from_checkLineLength _ _ _ f hm).check
    rw [hc] at other
    exact absurd other (by decide)

/-- **Places that are counted line by line** are those of the offsets. -/
theorem placed_checkLines {lines : List (List Char)} (h : Lined lines)
    (hl : ∀ raw ∈ lines, IsLine raw) (limit : Nat) {number : Nat} {front : List Char}
    (hf : Location.start.after front = ⟨number, 1⟩) :
    ∀ f ∈ checkLines limit number (Text.width front) lines, f.check = .trailingWhitespace →
      f.Placed (front ++ lines.flatten) := by
  induction h generalizing number front with
  | nil => exact fun _ hm => absurd hm List.not_mem_nil
  | last line =>
      rw [checkLines, checkLines, List.append_nil]
      exact placed_checkLine hf (hl line List.mem_cons_self) limit []
  | @line body lines _ ih =>
      obtain ⟨first, later⟩ := List.forall_mem_cons.mp hl
      refine List.forall_mem_append.mpr ⟨placed_checkLine hf first limit lines.flatten, ?_⟩
      have next : Location.start.after (front ++ (body ++ ['\n'])) = ⟨number + 1, 1⟩ := by
        obtain ⟨body', hb, rfl | e⟩ := first
        · simp at hb
        · rw [List.append_cancel_right e, Location.after_append, hf, Location.after_line hb]
      have behind := ih later next
      rwa [Text.width_append, List.append_assoc] at behind

/-! ### All findings -/

/-- The checks whose findings come with a fix at their place. -/
def placedChecks : List Check := [.lowercaseKeyword, .doubleNegation, .trailingWhitespace]

/-- **Positions are faithful**, in every text.  Along the offsets between characters the line and
column go up, so that no two offsets have the same one; and a finding about a keyword in lower case,
a double negation or blanks at the end of a line has an edit that replaces some characters of the
text and starts at the finding's own place. -/
theorem positions_faithful (text : String) :
    (∀ a b, Text.isBoundary text.toList a = true → Text.isBoundary text.toList b = true →
      (a < b → (Text.locate text.toList a).before (Text.locate text.toList b) = true) ∧
        (Text.locate text.toList a = Text.locate text.toList b → a = b)) ∧
      ∀ s schema, ∀ f ∈ lint s schema text, f.check ∈ placedChecks → f.Placed text.toList := by
  refine ⟨fun a b ha hb => ⟨Text.before_locate ha hb, Text.eq_of_locate_eq ha hb⟩, ?_⟩
  intro s schema f hf hc
  have apart : f.check ∉
      .parsing :: .unbalancedParens :: .emptyGroup :: .singleChildGroup :: ruleChecks := by
    revert hc
    cases f.check <;> decide
  have found : f ∈ (findings s schema text.toList).filter fun g => g.check = f.check :=
    List.mem_filter.mpr
      ⟨(List.mem_filter.mp ((perm_sortStable _).mem_iff.mp hf)).1, decide_eq_true rfl⟩
  rw [filter_findings apart] at found
  rcases List.mem_append.mp found with word | line
  · exact placed_checkKeywords (fun _ => bounded_of_mem_tokens) (pairwise_tokens _) none f
      (List.mem_filter.mp word).1
  · have member := (List.mem_filter.mp line).1
    have trailing : f.check = .trailingWhitespace := by
      have own := (from_checkLines _ _ _ _ f member).check
      revert own hc
      cases f.check <;> decide
    have first : Location.start.after [] = ⟨1, 1⟩ := rfl
    have placed := placed_checkLines (lined_splitLines text.toList)
      (fun _ => isLine_of_mem_splitLines) s.maxLineLength first f member trailing
    rwa [flatten_splitLines] at placed

/-- A character of two bytes in front of the keywords, blanks in front of a carriage return, and
blanks at the end of a text that ends without a line feed. -/
theorem positions_faithful_mixed :
    let text := "a == \"é\" and NOT NOT b == 2 \r\nOR c == \"é\" \t"
    let found := lint .standard none text
    found.map (fun f => (f.check, f.location, f.fix.map fun fix => fix.edit.start)) =
        [(.lowercaseKeyword, ⟨1, 10⟩, some 10), (.doubleNegation, ⟨1, 14⟩, some 14),
          (.trailingWhitespace, ⟨1, 28⟩, some 28), (.trailingWhitespace, ⟨2, 12⟩, some 43)] ∧
      (∀ f ∈ found, f.check ∈ placedChecks) ∧ (∀ f ∈ found, f.Placed text.toList) ∧
      Text.isBoundary text.toList 28 = true ∧ Text.isBoundary text.toList 43 = true ∧
      (Text.locate text.toList 28).before (Text.locate text.toList 43) = true := by
  intro text found
  have checks : ∀ f ∈ found, f.check ∈ placedChecks := by decide +kernel
  have first : Text.isBoundary text.toList 28 = true := by decide +kernel
  have second : Text.isBoundary text.toList 43 = true := by decide +kernel
  obtain ⟨increasing, placed⟩ := positions_faithful text
  exact ⟨by decide +kernel, checks, fun f hf => placed .standard none f hf (checks f hf), first,
    second, (increasing 28 43 first second).1 (by decide)⟩

end Lint

end Rulebook
