import Rulebook.Proofs.Lint.Fixing

/-!
# Rulebook — Proofs — Lint — Selection

Which edits are made, of whatever edits findings come with, and what becomes of the text.  An edit
is left out if it is malformed, or if it starts before the end of an edit already made; those made
are in order and do not overlap, so that each of them replaces a part of the text of its own, which
may be empty, and all the rest is kept.

* `selectEdits_spec`, `exists_skipped`: one pass over edits in order.
* `spliced?_eq`, `replaced_replaceFrom`: what is kept is cut out of the text within its bounds and
  between characters, and the edits that are made are exactly what changes.
* `applyFixes_exact`: all of it, and that the order of the findings does not matter where no two
  edits are for the same range.
-/

namespace Rulebook

namespace Text

variable {text : List Char} {start stop : Nat}

/-- The part of a text between two byte offsets.  There is none if they are out of order, beyond
the end or inside a character. -/
def slice? (text : List Char) (start stop : Nat) : Option (List Char) :=
  if start ≤ stop && isBoundary text start && isBoundary text stop then
    some (takeBytes (dropBytes text start) (stop - start))
  else none

/-- A boundary falls between two parts of the text. -/
theorem exists_of_isBoundary (h : isBoundary text start = true) :
    ∃ a b, text = a ++ b ∧ width a = start := by
  induction text generalizing start with
  | nil =>
      cases start with
      | zero => exact ⟨[], [], rfl, rfl⟩
      | succ n => cases h
  | cons c cs ih =>
      cases start with
      | zero => exact ⟨[], c :: cs, rfl, rfl⟩
      | succ n =>
          rw [isBoundary, Bool.and_eq_true, decide_eq_true_eq] at h
          obtain ⟨a, b, rfl, ha⟩ := ih h.2
          exact ⟨c :: a, b, rfl, by rw [width, ha]; omega⟩

/-- No boundary is beyond the end. -/
theorem le_width_of_isBoundary (h : isBoundary text start = true) : start ≤ width text := by
  obtain ⟨a, b, rfl, rfl⟩ := exists_of_isBoundary h
  rw [width_append]
  exact Nat.le_add_right _ _

theorem isBoundary_width (text : List Char) : isBoundary text (width text) = true := by
  simpa using isBoundary_append text []

/-- An offset that is not in front of a cut is a cut of what is behind that one. -/
theorem exists_cut {a b : List Char} (hs : isBoundary (a ++ b) stop = true) (h : width a ≤ stop) :
    ∃ m c, b = m ++ c ∧ width (a ++ m) = stop := by
  obtain ⟨a', b', e, rfl⟩ := exists_of_isBoundary hs
  rcases List.append_eq_append_iff.mp e with ⟨m, rfl, rfl⟩ | ⟨m, rfl, rfl⟩
  · exact ⟨m, b', rfl, rfl⟩
  · have empty : m = [] := by
      by_contra hm
      have positive := width_pos hm
      rw [width_append] at h
      omega
    subst empty
    exact ⟨[], b, rfl, by simp⟩

/-- Between two boundaries in order there is a part of the text. -/
theorem slice?_eq (hs : isBoundary text start = true) (ht : isBoundary text stop = true)
    (h : start ≤ stop) :
    slice? text start stop = some (takeBytes (dropBytes text start) (stop - start)) := by
  rw [slice?, hs, ht, decide_eq_true h]
  rfl

end Text

namespace Lint

variable {text : List Char} {cursor : Nat} {es : List Edit} {e : Edit}

/-- The ends are in order, and each falls between characters of the text or at an end of it. -/
structure Edit.WellFormed (e : Edit) (text : List Char) : Prop where
  ordered : e.start ≤ e.stop
  start : Text.isBoundary text e.start = true
  stop : Text.isBoundary text e.stop = true

/-- An edit is well-formed exactly if it fits into the text and falls on boundaries. -/
theorem Edit.wellFormed_iff :
    e.WellFormed text ↔ e.fits (Text.width text) = true ∧ e.onBoundaries text = true := by
  simp only [Edit.fits, Edit.onBoundaries, Bool.and_eq_true, decide_eq_true_eq]
  constructor
  · intro h
    exact ⟨⟨h.ordered, Text.le_width_of_isBoundary h.stop⟩, h.start, h.stop⟩
  · rintro ⟨⟨ordered, -⟩, start, stop⟩
    exact ⟨ordered, start, stop⟩

/-! ### One pass over edits in order -/

/-- **What is made is well formed, behind the cursor, and does not overlap.** -/
theorem selectEdits_spec (hf : ∀ e ∈ es, e.fits (Text.width text) = true) (cursor : Nat) :
    (∀ e ∈ selectEdits text cursor es, cursor ≤ e.start ∧ e.WellFormed text) ∧
      (selectEdits text cursor es).Pairwise fun a b => a.stop ≤ b.start := by
  induction es generalizing cursor with
  | nil => exact ⟨List.forall_mem_nil _, .nil⟩
  | cons e es ih =>
      obtain ⟨fits, hf⟩ := List.forall_mem_cons.mp hf
      rw [selectEdits]
      split
      · exact ih hf cursor
      · rename_i made
        obtain ⟨behind, boundaries⟩ : cursor ≤ e.start ∧ e.onBoundaries text = true := by
          simpa using made
        obtain ⟨later, apart⟩ := ih hf e.stop
        have formed : e.WellFormed text := Edit.wellFormed_iff.mpr ⟨fits, boundaries⟩
        refine ⟨List.forall_mem_cons.mpr ⟨⟨behind, formed⟩, fun a ha => ?_⟩,
          List.pairwise_cons.mpr ⟨fun a ha => (later a ha).1, apart⟩⟩
        exact ⟨(behind.trans formed.ordered).trans (later a ha).1, (later a ha).2⟩

/-- **What is left out** has an end inside a character, or starts in front of the cursor or of the
end of an edit that is made and comes before it. -/
theorem exists_skipped (text : List Char) (cursor : Nat) (es : List Edit) :
    ∃ skipped, (selectEdits text cursor es ++ skipped).Perm es ∧
      ∀ e ∈ skipped, e.onBoundaries text = false ∨ e.start < cursor ∨
        ∃ a ∈ selectEdits text cursor es, [a, e].Sublist es ∧ e.start < a.stop := by
  induction es generalizing cursor with
  | nil => exact ⟨[], .nil, List.forall_mem_nil _⟩
  | cons e es ih =>
      rw [selectEdits]
      split
      · rename_i left
        obtain ⟨skipped, perm, why⟩ := ih cursor
        refine ⟨e :: skipped, List.perm_middle.trans (perm.cons e),
          List.forall_mem_cons.mpr ⟨?_, fun a ha => ?_⟩⟩
        · rcases Bool.or_eq_true _ _ |>.mp left with early | inside
          · exact .inr (.inl (of_decide_eq_true early))
          · exact .inl (Bool.not_eq_true' _ |>.mp inside)
        · rcases why a ha with inside | early | ⟨b, hb, order, early⟩
          · exact .inl inside
          · exact .inr (.inl early)
          · exact .inr (.inr ⟨b, hb, order.cons e, early⟩)
      · obtain ⟨skipped, perm, why⟩ := ih e.stop
        refine ⟨skipped, perm.cons e, fun a ha => ?_⟩
        rcases why a ha with inside | early | ⟨b, hb, order, early⟩
        · exact .inl inside
        · have member : a ∈ es := perm.mem_iff.mp (List.mem_append_right _ ha)
          exact .inr (.inr ⟨e, List.mem_cons_self,
            (List.singleton_sublist.mpr member).cons_cons e, early⟩)
        · exact .inr (.inr ⟨b, List.mem_cons_of_mem e hb, order.cons e, early⟩)

/-! ### The text with edits made -/

/-- The text from `cursor` on with edits made, each part that is kept being cut out of the text. -/
def spliced? (text : List Char) (cursor : Nat) : List Edit → Option (List Char)
  | [] => Text.slice? text cursor (Text.width text)
  | e :: es => do
    let kept ← Text.slice? text cursor e.start
    let rest ← spliced? text e.stop es
    return kept ++ e.replacement.toList ++ rest

/-- A text from an offset on, edits of it, and the text with just these made: in front of each
something is kept, and then a part is replaced. -/
inductive Replaced : Nat → List Char → List Edit → List Char → Prop where
  | done {offset : Nat} {cs : List Char} : Replaced offset cs [] cs
  | edit {offset : Nat} {kept part cs ds : List Char} {replacement : String} {es : List Edit}
      (t : Replaced (offset + Text.width (kept ++ part)) cs es ds) :
      Replaced offset (kept ++ (part ++ cs))
        (⟨offset + Text.width kept, offset + Text.width (kept ++ part), replacement⟩ :: es)
        (kept ++ (replacement.toList ++ ds))

/-- Edits behind a cursor that is between characters. -/
structure Ready (text : List Char) (cursor : Nat) (es : List Edit) : Prop where
  boundary : Text.isBoundary text cursor = true
  behind : ∀ e ∈ es, cursor ≤ e.start ∧ e.WellFormed text
  apart : es.Pairwise fun a b => a.stop ≤ b.start

/-- Behind the first edit the others are ready. -/
theorem Ready.tail (h : Ready text cursor (e :: es)) : Ready text e.stop es where
  boundary := (h.behind e List.mem_cons_self).2.stop
  behind a ha := ⟨List.rel_of_pairwise_cons h.apart ha, (h.behind a (List.mem_cons_of_mem e ha)).2⟩
  apart := h.apart.of_cons

/-- **Nothing is cut out of bounds or inside a character.** -/
theorem spliced?_eq (h : Ready text cursor es) :
    spliced? text cursor es = some (replaceFrom text cursor es) := by
  induction es generalizing cursor with
  | nil =>
      have whole := Text.isBoundary_width text
      rw [spliced?, Text.slice?_eq h.boundary whole (Text.le_width_of_isBoundary h.boundary),
        replaceFrom]
      obtain ⟨a, b, rfl, rfl⟩ := Text.exists_of_isBoundary h.boundary
      rw [Text.dropBytes_append, Text.width_append, Nat.add_sub_cancel_left]
      exact congrArg some (by simpa using Text.takeBytes_append b [])
  | cons e es ih =>
      obtain ⟨behind, formed⟩ := h.behind e List.mem_cons_self
      rw [spliced?, Text.slice?_eq h.boundary formed.start behind, ih h.tail]
      rfl

/-- **Just the edits are made.** -/
theorem replaced_replaceFrom (h : Ready text cursor es) :
    Replaced cursor (Text.dropBytes text cursor) es (replaceFrom text cursor es) := by
  induction es generalizing cursor with
  | nil => exact .done
  | cons e es ih =>
      obtain ⟨behind, formed⟩ := h.behind e List.mem_cons_self
      have rest := ih h.tail
      obtain ⟨start, stop, replacement⟩ := e
      obtain ⟨front, cs, rfl, rfl⟩ := Text.exists_of_isBoundary h.boundary
      obtain ⟨kept, cs, rfl, rfl⟩ := Text.exists_cut formed.start behind
      rw [← List.append_assoc] at formed
      obtain ⟨part, cs, rfl, rfl⟩ := Text.exists_cut formed.stop formed.ordered
      have whole : front ++ (kept ++ (part ++ cs)) = front ++ kept ++ part ++ cs := by simp
      have left : Text.dropBytes (front ++ (kept ++ (part ++ cs)))
          (Text.width (front ++ kept ++ part)) = cs := by rw [whole, Text.dropBytes_append]
      have start : Text.width (front ++ kept) = Text.width front + Text.width kept :=
        Text.width_append _ _
      have stop : Text.width (front ++ kept ++ part) =
          Text.width front + Text.width (kept ++ part) := by
        rw [List.append_assoc, Text.width_append]
      rw [replaceFrom, Text.dropBytes_append, start, Nat.add_sub_cancel_left,
        Text.takeBytes_append, List.append_assoc kept]
      dsimp only at rest ⊢
      rw [left] at rest
      rw [stop] at rest ⊢
      exact rest.edit

/-! ### Findings -/

/-- The edits of findings, in the order of these. -/
def proposedEdits (findings : List Finding) : List Edit :=
  findings.filterMap fun f => f.fix.map Fix.edit

/-- The edits that are made are ready from the start of the text on. -/
theorem ready_madeEdits (text : List Char) (findings : List Finding) :
    Ready text 0 (madeEdits text findings) := by
  have fits : ∀ e ∈ orderedEdits text findings, e.fits (Text.width text) = true := fun e he =>
    (List.mem_filter.mp ((perm_sortStable _).mem_iff.mp he)).2
  obtain ⟨behind, apart⟩ := selectEdits_spec fits 0
  exact ⟨by cases text <;> rfl, behind, apart⟩

/-- The edits of findings are made or left out. -/
theorem exists_left (text : List Char) (findings : List Finding) :
    ∃ left, (madeEdits text findings ++ left).Perm (proposedEdits findings) ∧
      ∀ e ∈ left, ¬ e.WellFormed text ∨ ∃ a ∈ madeEdits text findings,
        [a, e].Sublist (orderedEdits text findings) ∧ a.le e = true ∧ e.start < a.stop := by
  obtain ⟨skipped, perm, why⟩ := exists_skipped text 0 (orderedEdits text findings)
  let fits (e : Edit) : Bool := e.fits (Text.width text)
  refine ⟨skipped ++ (proposedEdits findings).filter fun e => !fits e, ?_, fun e he => ?_⟩
  · rw [← List.append_assoc]
    exact ((perm.trans (perm_sortStable _)).append_right _).trans
      (List.filter_append_perm fits (proposedEdits findings))
  · rcases List.mem_append.mp he with he | he
    · rcases why e he with inside | early | ⟨a, ha, order, early⟩
      · refine .inl fun formed => ?_
        rw [(Edit.wellFormed_iff.mp formed).2] at inside
        cases inside
      · exact absurd early (Nat.not_lt_zero _)
      · have sorted : a.le e = true :=
          List.rel_of_pairwise_cons ((pairwise_sortStable _).sublist order) List.mem_cons_self
        exact .inr ⟨a, ha, order, sorted, early⟩
    · refine .inl fun formed => ?_
      have beyond := (List.mem_filter.mp he).2
      rw [show fits e = true from (Edit.wellFormed_iff.mp formed).1] at beyond
      cases beyond

/-- Edits for different ranges are put in one order, whatever order they come in. -/
theorem orderedEdits_eq {found found' : List Finding}
    (hp : (proposedEdits found').Perm (proposedEdits found))
    (hd : ((proposedEdits found).map fun e => (e.start, e.stop)).Nodup) :
    orderedEdits text found' = orderedEdits text found := by
  have distinct : ((orderedEdits text found).map fun e => (e.start, e.stop)).Nodup :=
    ((perm_sortStable _).map _).nodup_iff.mpr (hd.sublist (List.filter_sublist.map _))
  exact sortStable_eq ((hp.filter _).trans (perm_sortStable _).symm) (pairwise_sortStable _)
    distinct

/-- **Fixes are applied safely and exactly**, whatever edits the findings come with.  Every part of
the text that is kept is cut out within bounds and between characters; the edits that are made are
well formed and do not overlap, and just their ranges are replaced; an edit that is left out is
malformed or starts before the end of one that is made and comes before it in order; and where no
two edits are for the same range, the order of the findings does not matter. -/
theorem applyFixes_exact (text : String) (findings : List Finding) :
    let made := madeEdits text.toList findings
    spliced? text.toList 0 made = some (applyFixes text findings).toList ∧
      Replaced 0 text.toList made (applyFixes text findings).toList ∧
      (∀ e ∈ made, e.WellFormed text.toList) ∧ made.Pairwise (fun a b => a.stop ≤ b.start) ∧
      (∃ left, (made ++ left).Perm (proposedEdits findings) ∧
        ∀ e ∈ left, ¬ e.WellFormed text.toList ∨ ∃ a ∈ made,
          [a, e].Sublist (orderedEdits text.toList findings) ∧ a.le e = true ∧
            e.start < a.stop) ∧
      ∀ others : List Finding, others.Perm findings →
        ((proposedEdits findings).map fun e => (e.start, e.stop)).Nodup →
          applyFixes text others = applyFixes text findings := by
  intro made
  have ready := ready_madeEdits text.toList findings
  have fixed : (applyFixes text findings).toList = replaceFrom text.toList 0 made := by
    rw [applyFixes, String.toList_ofList]
  have start : Text.dropBytes text.toList 0 = text.toList := Text.dropBytes_append [] _
  refine ⟨?_, ?_, fun e he => (ready.behind e he).2, ready.apart, exists_left _ _, ?_⟩
  · rw [fixed]
    exact spliced?_eq ready
  · rw [fixed]
    have replaced := replaced_replaceFrom ready
    rwa [start] at replaced
  · intro others hp hd
    rw [applyFixes, applyFixes, madeEdits, madeEdits, orderedEdits_eq (hp.filterMap _) hd]

/-- An insertion, two overlapping edits, and edits inside a character, beyond the end and with their
ends out of order. -/
theorem applyFixes_exact_mixed :
    let finding (start stop : Nat) (replacement : String) : Finding :=
      .of .lowercaseKeyword .start "" (some ⟨"", ⟨start, stop, replacement⟩⟩)
    let findings := [finding 4 6 "!=", finding 2 5 "x", finding 1 3 "y", finding 7 99 "z",
      finding 6 2 "v", finding 0 0 "a", finding 0 2 "b"]
    madeEdits "é == 1".toList findings = [⟨0, 0, "a"⟩, ⟨0, 2, "b"⟩, ⟨2, 5, "x"⟩] ∧
      findings.reverse.Perm findings ∧
      ((proposedEdits findings).map fun e => (e.start, e.stop)).Nodup ∧
      applyFixes "é == 1" findings.reverse = applyFixes "é == 1" findings ∧
      applyFixes "é == 1" findings = "abx 1" := by
  intro finding findings
  have distinct : ((proposedEdits findings).map fun e => (e.start, e.stop)).Nodup := by decide
  have perm : findings.reverse.Perm findings := List.reverse_perm _
  obtain ⟨-, -, -, -, -, anyOrder⟩ := applyFixes_exact "é == 1" findings
  exact ⟨by decide +kernel, perm, distinct, anyOrder _ perm distinct, by decide +kernel⟩

end Lint

end Rulebook
