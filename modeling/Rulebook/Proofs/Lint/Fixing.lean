import Mathlib.Data.List.Sort
import Rulebook.Lint.Fixing

/-!
# Rulebook — Proofs — Lint — Fixing

What becomes of a text when fixes are applied.  `Splices` says it of edits that are in order and do
not touch: each part of the text is kept or replaced.  Fixes whose edits are such, in whatever order
the findings come, are all made (`applyFixes_of_splices`).
-/

namespace Rulebook

/-! ### Sorting -/

section

variable {α : Type} {le : α → α → Bool} {l l' : List α}

/-- Inserting in order is the library's ordered insertion. -/
theorem insertSorted_eq_orderedInsert (a : α) (l : List α) :
    insertSorted le a l = l.orderedInsert (fun a b => le a b = true) a := by
  induction l with
  | nil => rfl
  | cons b bs ih => rw [insertSorted, List.orderedInsert, ih]

/-- Sorting is the library's insertion sort. -/
theorem sortStable_eq_insertionSort (l : List α) :
    sortStable le l = l.insertionSort fun a b => le a b = true := by
  induction l with
  | nil => rfl
  | cons a as ih => rw [sortStable, ih, insertSorted_eq_orderedInsert, List.insertionSort_cons]

/-- Sorting reorders a list. -/
theorem perm_sortStable (l : List α) : (sortStable le l).Perm l := by
  rw [sortStable_eq_insertionSort]
  exact List.perm_insertionSort _ l

end

namespace Text

/-! ### Bytes -/

/-- Between two parts of a text there is a boundary. -/
theorem isBoundary_append (a b : List Char) : isBoundary (a ++ b) (width a) = true := by
  induction a with
  | nil => cases b <;> rfl
  | cons c a ih =>
      obtain ⟨n, hn⟩ := Nat.exists_eq_succ_of_ne_zero (Nat.ne_of_gt c.utf8Size_pos)
      have hw : width (c :: a) = n + width a + 1 := by rw [width, hn, Nat.succ_add]
      rw [hw, List.cons_append, isBoundary, hn, Bool.and_eq_true, decide_eq_true_eq]
      refine ⟨by omega, ?_⟩
      rwa [show n + width a + 1 - n.succ = width a by omega]

/-- Without the bytes of the first part the second one is left. -/
theorem dropBytes_append (a b : List Char) : dropBytes (a ++ b) (width a) = b := by
  induction a with
  | nil =>
      cases b with
      | nil => rfl
      | cons c b => exact if_pos c.utf8Size_pos
  | cons c a ih =>
      rw [List.cons_append, dropBytes, width, if_neg (by omega), Nat.add_sub_cancel_left, ih]

/-- The bytes of the first part are the first part. -/
theorem takeBytes_append (a b : List Char) : takeBytes (a ++ b) (width a) = a := by
  have whole := takeBytes_append_dropBytes (a ++ b) (width a)
  rw [dropBytes_append] at whole
  exact List.append_cancel_right whole

theorem width_pos {a : List Char} (h : a ≠ []) : 0 < width a := by
  obtain ⟨c, t, rfl⟩ := List.exists_cons_of_ne_nil h
  exact Nat.add_pos_left c.utf8Size_pos _

end Text

namespace Lint

/-! ### Edits in order -/

/-- The edits of a text, whose first character has the given offset, and the text with them made:
they are in order, and each replaces some characters. -/
inductive Splices : Nat → List Char → List Edit → List Char → Prop where
  | done {offset : Nat} {cs : List Char} : Splices offset cs [] cs
  | keep {offset : Nat} {part cs ds : List Char} {es : List Edit}
      (t : Splices (offset + Text.width part) cs es ds) :
      Splices offset (part ++ cs) es (part ++ ds)
  | edit {offset : Nat} {part cs ds : List Char} {replacement : String} {es : List Edit}
      (hp : part ≠ []) (t : Splices (offset + Text.width part) cs es ds) :
      Splices offset (part ++ cs) (⟨offset, offset + Text.width part, replacement⟩ :: es)
        (replacement.toList ++ ds)

variable {offset : Nat} {cs ds : List Char} {es : List Edit}

namespace Splices

theorem cons {c : Char} (t : Splices (offset + c.utf8Size) cs es ds) :
    Splices offset (c :: cs) es (c :: ds) := by
  have behind : Splices (offset + Text.width [c]) cs es ds := by simpa [Text.width] using t
  exact behind.keep

/-- Every edit starts at the offset or behind it. -/
theorem start_le (h : Splices offset cs es ds) : ∀ e ∈ es, offset ≤ e.start := by
  induction h with
  | done => exact List.forall_mem_nil _
  | keep t ih => exact fun e he => Nat.le_of_add_right_le (ih e he)
  | edit hp t ih =>
      exact List.forall_mem_cons.mpr ⟨Nat.le_refl _, fun e he => Nat.le_of_add_right_le (ih e he)⟩

/-- The edits are in order, and none starts where another one does. -/
theorem pairwise (h : Splices offset cs es ds) : es.Pairwise fun a b => a.start < b.start := by
  induction h with
  | done => exact .nil
  | keep t ih => exact ih
  | edit hp t ih =>
      refine .cons (fun e he => ?_) ih
      have later := t.start_le e he
      have positive := Text.width_pos hp
      dsimp only
      omega

/-- Every edit fits into the text. -/
theorem fits (h : Splices offset cs es ds) :
    ∀ e ∈ es, e.fits (offset + Text.width cs) = true := by
  induction h with
  | done => exact List.forall_mem_nil _
  | keep t ih => rwa [Text.width_append, ← Nat.add_assoc]
  | edit hp t ih =>
      rw [Text.width_append, ← Nat.add_assoc]
      exact List.forall_mem_cons.mpr ⟨by simp [Edit.fits], ih⟩

/-- Edits in order are all made. -/
theorem replaceFrom_eq (h : Splices offset cs es ds) {front kept : List Char}
    (ho : Text.width (front ++ kept) = offset) :
    replaceFrom (front ++ kept ++ cs) (Text.width front)
      (selectEdits (front ++ kept ++ cs) (Text.width front) es) = kept ++ ds := by
  induction h generalizing front kept with
  | done => rw [selectEdits, replaceFrom, List.append_assoc, Text.dropBytes_append]
  | @keep offset part cs ds es t ih =>
      have behind := @ih front (kept ++ part) (by rw [← ho]; simp [Nat.add_assoc])
      simpa using behind
  | @edit offset part cs ds replacement es hp t ih =>
      subst ho
      have here : front ++ kept ++ (part ++ cs) = front ++ (kept ++ part ++ cs) := by simp
      have there : front ++ kept ++ (part ++ cs) = front ++ kept ++ part ++ cs := by simp
      have behind := @ih (front ++ kept ++ part) [] (by simp [Nat.add_assoc])
      have stop : Text.width (front ++ kept ++ part) =
          Text.width (front ++ kept) + Text.width part := Text.width_append _ _
      rw [List.append_nil, ← there, stop] at behind
      have boundaries : Edit.onBoundaries ⟨Text.width (front ++ kept),
          Text.width (front ++ kept) + Text.width part, replacement⟩
            (front ++ kept ++ (part ++ cs)) = true := by
        rw [Edit.onBoundaries, Bool.and_eq_true]
        refine ⟨Text.isBoundary_append _ _, ?_⟩
        dsimp only
        rw [there, ← stop]
        exact Text.isBoundary_append _ _
      have before : Text.width (front ++ kept) - Text.width front = Text.width kept := by simp
      rw [selectEdits, boundaries, if_neg (by simp), replaceFrom, behind]
      dsimp only
      rw [before, here, Text.dropBytes_append, List.append_assoc kept, Text.takeBytes_append,
        List.append_assoc]
      rfl

end Splices

namespace Edit

/-- Edits are ordered by their starts, and then by their ends. -/
theorem le_iff {a b : Edit} :
    a.le b = true ↔ a.start < b.start ∨ a.start = b.start ∧ a.stop ≤ b.stop := by
  simp [Edit.le]

theorem total_le : Std.Total fun a b : Edit => a.le b = true :=
  ⟨fun a b => by simp only [le_iff]; omega⟩

theorem trans_le : IsTrans Edit fun a b => a.le b = true :=
  ⟨fun a b c => by simp only [le_iff]; omega⟩

end Edit

/-- Sorted edits are in order. -/
theorem pairwise_sortStable (es : List Edit) :
    (sortStable Edit.le es).Pairwise fun a b => a.le b = true := by
  have := Edit.total_le
  have := Edit.trans_le
  rw [sortStable_eq_insertionSort]
  exact List.pairwise_insertionSort _ _

/-- There is one order of edits for different ranges. -/
theorem sortStable_eq {l l' : List Edit} (hp : l.Perm l')
    (sorted : l'.Pairwise fun a b => a.le b = true)
    (distinct : (l'.map fun e => (e.start, e.stop)).Nodup) : sortStable Edit.le l = l' := by
  have perm : (sortStable Edit.le l).Perm l' := (perm_sortStable l).trans hp
  refine perm.eq_of_pairwise (fun a b ha hb hab hba => ?_) (pairwise_sortStable l) sorted
  have level : (a.start, a.stop) = (b.start, b.stop) := by
    rw [Edit.le_iff] at hab hba
    rw [Prod.mk.injEq]
    omega
  exact List.inj_on_of_nodup_map distinct (perm.mem_iff.mp ha) hb level

/-- Edits in order are put in that order, however the findings come. -/
theorem orderedEdits_of_perm {text : List Char} {found : List Finding}
    (hp : (found.filterMap fun f => f.fix.map Fix.edit).Perm es)
    (hs : es.Pairwise fun a b => a.start < b.start)
    (hf : ∀ e ∈ es, e.fits (Text.width text) = true) : orderedEdits text found = es := by
  have all : (found.filterMap fun f => f.fix.map Fix.edit).filter
      (fun e => e.fits (Text.width text)) = found.filterMap fun f => f.fix.map Fix.edit :=
    List.filter_eq_self.mpr fun e he => hf e (hp.mem_iff.mp he)
  have distinct : (es.map fun e => (e.start, e.stop)).Nodup := by
    refine List.pairwise_map.mpr (hs.imp fun {a b} h same => ?_)
    exact Nat.ne_of_lt h (Prod.mk.inj same).1
  rw [orderedEdits, all]
  exact sortStable_eq hp (hs.imp fun h => Edit.le_iff.mpr (.inl h)) distinct

/-- **Fixes whose edits are in order are all made.** -/
theorem applyFixes_of_splices {text : String} {found : List Finding}
    (hp : (found.filterMap fun f => f.fix.map Fix.edit).Perm es)
    (h : Splices 0 text.toList es ds) : applyFixes text found = String.ofList ds := by
  have fits : ∀ e ∈ es, e.fits (Text.width text.toList) = true := by
    simpa using h.fits
  rw [applyFixes, madeEdits, orderedEdits_of_perm hp h.pairwise fits]
  have start : Text.width ([] ++ [] : List Char) = 0 := rfl
  exact congrArg String.ofList (h.replaceFrom_eq start)

end Lint

end Rulebook
