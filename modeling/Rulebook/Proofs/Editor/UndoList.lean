import Rulebook.Proofs.Editor.Timeline

/-!
# Rulebook — Proofs — Editor — UndoList

A history is a current value between two stacks.  It keeps its values in one list with a cursor,
forgets those behind the cursor when a value is recorded, and drops the oldest from the front; seen
through `History.view` that is pushing and popping, whatever is asked in whatever order.

* `History.view_record`, `History.view_undo?`, `History.view_redo?`: one operation.
* `History.run_start`: any run from the start, its answers and what is kept at its end.
-/

namespace Rulebook

/-! ### Two stacks -/

/-- A current value, those before it with the last one first, and those after it. -/
structure UndoList (α : Type) where
  past : List α
  now : α
  future : List α

/-- What is asked of a history. -/
inductive HistoryRequest (α : Type) where
  | record (a : α)
  | undo
  | redo

namespace UndoList

variable {α : Type}

def start (a : α) : UndoList α := ⟨[], a, []⟩

/-- Pushes the current value, and keeps as many of the past ones as there is room for. -/
def record (room : Nat) (u : UndoList α) (a : α) : UndoList α :=
  ⟨(u.now :: u.past).take (room - 1), a, []⟩

/-- Pops the last value of the past. -/
def undo? (u : UndoList α) : Option (UndoList α) :=
  match u.past with
  | [] => none
  | a :: past => some ⟨past, a, u.now :: u.future⟩

/-- Pops the next value of the future. -/
def redo? (u : UndoList α) : Option (UndoList α) :=
  match u.future with
  | [] => none
  | a :: future => some ⟨u.now :: u.past, a, future⟩

/-- Goes to another state if there is one, and tells its current value. -/
def goTo (u : UndoList α) : Option (UndoList α) → Option α × UndoList α
  | none => (none, u)
  | some v => (some v.now, v)

/-- Does what is asked.  Recording tells nothing. -/
def perform (room : Nat) (u : UndoList α) : HistoryRequest α → Option α × UndoList α
  | .record a => (none, u.record room a)
  | .undo => u.goTo u.undo?
  | .redo => u.goTo u.redo?

/-- Does what is asked, one after the other. -/
def run (room : Nat) (u : UndoList α) : List (HistoryRequest α) → List (Option α) × UndoList α
  | [] => ([], u)
  | q :: qs =>
    let (a, v) := u.perform room q
    let (as, w) := v.run room qs
    (a :: as, w)

end UndoList

namespace History

variable {α : Type} {h : History α} {past future : List α} {a : α}

/-- Goes to another state if there is one, and tells its current value. -/
def goTo (h : History α) : Option (History α) → Option α × History α
  | none => (none, h)
  | some h' => (some h'.current, h')

/-- Does what is asked.  Recording tells nothing. -/
def perform (h : History α) : HistoryRequest α → Option α × History α
  | .record a => (none, h.record a)
  | .undo => h.goTo h.undo?
  | .redo => h.goTo h.redo?

/-- Does what is asked, one after the other. -/
def run (h : History α) : List (HistoryRequest α) → List (Option α) × History α
  | [] => ([], h)
  | q :: qs =>
    let (a, h') := h.perform q
    let (as, h'') := h'.run qs
    (a :: as, h'')

/-- The history as two stacks. -/
def view (h : History α) : UndoList α :=
  ⟨(h.entries.take h.cursor).reverse, h.current, h.entries.drop (h.cursor + 1)⟩

/-! ### The list and the stacks -/

/-- The entries are the past from its end on, the present, and the future. -/
theorem entries_eq (h : History α) :
    h.entries = h.view.past.reverse ++ h.view.now :: h.view.future := by
  rw [view, List.reverse_reverse]
  have here : h.current :: h.entries.drop (h.cursor + 1) = h.entries.drop h.cursor :=
    (List.drop_eq_getElem_cons h.inRange).symm
  rw [here, List.take_append_drop]

/-- The cursor counts the states in the past. -/
theorem cursor_eq (h : History α) : h.cursor = h.view.past.length := by
  rw [view, List.length_reverse, List.length_take]
  exact (Nat.min_eq_left h.inRange.le).symm

/-- The stacks are those that the list and the cursor are made of. -/
theorem view_eq (he : h.entries = past.reverse ++ a :: future) (hc : h.cursor = past.length) :
    h.view = ⟨past, a, future⟩ := by
  have length : h.cursor = past.reverse.length := by rw [hc, List.length_reverse]
  have current := getElem?_cursor h
  rw [he, length, List.getElem?_append_right (Nat.le_refl _), Nat.sub_self] at current
  have same : a = h.current := Option.some.inj current
  rw [view, he, ← same, length, List.take_left, List.reverse_reverse, List.append_cons,
    List.drop_left' (by simp)]

/-- The size counts the past, the present and the future. -/
theorem size_eq (h : History α) : h.size = h.view.past.length + 1 + h.view.future.length := by
  rw [size, entries_eq, List.length_append, List.length_reverse, List.length_cons]
  omega

/-! ### One operation -/

/-- A history that starts has neither past nor future. -/
theorem view_start (capacity : Nat) (a : α) : (start capacity a).view = .start a := rfl

/-- The newest of past values are those on top of the stack. -/
theorem newest_concat {room : Nat} (hr : 0 < room) (past : List α) (a : α) :
    newest room (past.reverse ++ [a]) = (past.take (room - 1)).reverse ++ [a] := by
  have dropped : past.length + 1 - room = past.length - (room - 1) := by omega
  rw [newest, List.length_append, List.length_reverse, List.length_singleton, dropped,
    List.drop_append_of_le_length (by rw [List.length_reverse]; omega), List.reverse_take]

/-- **A record pushes the present onto the past, forgets the future, and drops the oldest state if
there are too many.** -/
theorem view_record (h : History α) (a : α) :
    (h.record a).view = h.view.record h.capacity a := by
  have kept : h.entries.take (h.cursor + 1) = (h.view.now :: h.view.past).reverse := by
    rw [List.reverse_cons, cursor_eq, ← List.length_reverse]
    conv_lhs => rw [entries_eq, List.append_cons]
    exact List.take_left' (by simp)
  have entries : (h.record a).entries =
      ((h.view.now :: h.view.past).take (h.capacity - 1)).reverse ++ [a] := by
    show newest h.capacity (h.entries.take (h.cursor + 1) ++ [a]) = _
    rw [kept, newest_concat h.capacity_pos]
  refine view_eq entries ?_
  show (h.record a).entries.length - 1 = _
  rw [entries, List.length_append, List.length_reverse, List.length_singleton,
    Nat.add_sub_cancel]

/-- An undo pops the past and pushes the present onto the future. -/
theorem view_undo? (h : History α) : h.undo?.map view = h.view.undo? := by
  have entries := h.entries_eq
  have cursor := h.cursor_eq
  generalize h.view = u at entries cursor ⊢
  obtain ⟨past, now, future⟩ := u
  cases past with
  | nil => rw [undo?, if_neg (by rw [cursor]; exact Nat.lt_irrefl 0)]; rfl
  | cons a past =>
      have before : 0 < h.cursor := by rw [cursor]; exact Nat.succ_pos _
      rw [undo?, if_pos before, Option.map_some]
      refine congrArg some (view_eq ?_ ?_)
      · show h.entries = _
        rw [entries, List.reverse_cons, List.append_assoc]
        rfl
      · show h.cursor - 1 = _
        rw [cursor]
        rfl

/-- A redo pops the future and pushes the present onto the past. -/
theorem view_redo? (h : History α) : h.redo?.map view = h.view.redo? := by
  have entries := h.entries_eq
  have cursor := h.cursor_eq
  have size := h.size_eq
  generalize h.view = u at entries cursor size ⊢
  obtain ⟨past, now, future⟩ := u
  rw [History.size] at size
  cases future with
  | nil => rw [redo?, dif_neg (by rw [cursor, size]; simp)]; rfl
  | cons a future =>
      rw [redo?, dif_pos (by rw [cursor, size]; simp), Option.map_some]
      refine congrArg some (view_eq ?_ ?_)
      · show h.entries = _
        rw [entries, List.reverse_cons, List.append_assoc]
        rfl
      · show h.cursor + 1 = _
        rw [cursor]
        rfl

/-- A step in time leads the two histories to the same place, or none of them. -/
theorem view_goTo {o : Option (History α)} {p : Option (UndoList α)} (ho : o.map view = p) :
    (h.goTo o).1 = (h.view.goTo p).1 ∧ (h.goTo o).2.view = (h.view.goTo p).2 := by
  subst ho
  cases o <;> exact ⟨rfl, rfl⟩

/-- **What is asked of a history is done to its stacks.** -/
theorem view_perform (h : History α) (q : HistoryRequest α) :
    (h.perform q).1 = (h.view.perform h.capacity q).1 ∧
      (h.perform q).2.view = (h.view.perform h.capacity q).2 := by
  cases q with
  | record a => exact ⟨rfl, view_record h a⟩
  | undo => exact view_goTo h.view_undo?
  | redo => exact view_goTo h.view_redo?

/-! ### Room -/

/-- There are no more values than there is room for. -/
structure Bounded (h : History α) (room : Nat) : Prop where
  capacity : h.capacity = room
  size_le : h.size ≤ room

/-- A history that starts is within its bounds, which leave room for one state at least. -/
theorem bounded_start (capacity : Nat) (a : α) : (start capacity a).Bounded (max 1 capacity) :=
  ⟨rfl, Nat.le_max_left 1 capacity⟩

/-- No request takes a history out of its bounds. -/
theorem Bounded.perform {room : Nat} (hb : h.Bounded room) (q : HistoryRequest α) :
    (h.perform q).2.Bounded room := by
  have travel {place : Nat} {h' : History α} (ha : h.At place h') : h'.Bounded room :=
    ⟨ha.capacity.trans hb.capacity, by rw [size, ha.entries]; exact hb.size_le⟩
  cases q with
  | record a =>
      refine ⟨hb.capacity, ?_⟩
      show (h.entriesWith a).length ≤ room
      rw [length_entriesWith, hb.capacity]
      exact Nat.min_le_left _ _
  | undo =>
      show (h.goTo h.undo?).2.Bounded room
      cases hu : h.undo? with
      | none => exact hb
      | some h' => exact travel (undo?_eq_some hu).2
  | redo =>
      show (h.goTo h.redo?).2.Bounded room
      cases hr : h.redo? with
      | none => exact hb
      | some h' => exact travel (redo?_eq_some hr).2

/-! ### Runs -/

/-- **Whatever is asked of a history, the two stacks give the same answers**, and the history stays
within its bounds. -/
theorem view_run {room : Nat} (hb : h.Bounded room) (qs : List (HistoryRequest α)) :
    (h.run qs).1 = (h.view.run room qs).1 ∧ (h.run qs).2.view = (h.view.run room qs).2 ∧
      (h.run qs).2.Bounded room := by
  induction qs generalizing h with
  | nil => exact ⟨rfl, rfl, hb⟩
  | cons q qs ih =>
      obtain ⟨answer, state⟩ := view_perform h q
      obtain ⟨answers, final, bounded⟩ := ih (hb.perform q)
      rw [hb.capacity] at answer state
      rw [state] at answers final
      exact ⟨congrArg₂ List.cons answer answers, final, bounded⟩

/-- **A history is two stacks around a current value.**  Whatever is asked of it from the start, it
gives the answers that they give; its list is the past, the current value and the future, with the
cursor behind the past; and there is always a value, and never more than there is room for. -/
theorem run_start (capacity : Nat) (a : α) (qs : List (HistoryRequest α)) :
    let (answers, h) := (start capacity a).run qs
    let (expected, u) := (UndoList.start a).run (max 1 capacity) qs
    answers = expected ∧
      h.entries = u.past.reverse ++ u.now :: u.future ∧ h.cursor = u.past.length ∧
      h.current = u.now ∧ (h.canUndo = !u.past.isEmpty) ∧ (h.canRedo = !u.future.isEmpty) ∧
      h.entries ≠ [] ∧ h.cursor < h.entries.length ∧
      h.size = u.past.length + 1 + u.future.length ∧ h.size ≤ max 1 capacity := by
  obtain ⟨answers, state, bounded⟩ := view_run (bounded_start capacity a) qs
  generalize (start capacity a).run qs = r at answers state bounded
  rw [view_start] at answers state
  generalize (UndoList.start a).run (max 1 capacity) qs = s at answers state
  obtain ⟨given, h⟩ := r
  obtain ⟨expected, u⟩ := s
  dsimp only at answers state bounded ⊢
  subst state
  refine ⟨answers, h.entries_eq, h.cursor_eq, rfl, ?_, ?_,
    List.ne_nil_of_length_pos (Nat.zero_lt_of_lt h.inRange), h.inRange, h.size_eq,
    bounded.size_le⟩
  · rw [canUndo, cursor_eq]
    cases h.view.past <;> rfl
  · have size := h.size_eq
    rw [History.size] at size
    rw [canRedo, cursor_eq, size]
    cases h.view.future <;> simp

/-- Where there is room for two values, one is dropped, and what was undone is forgotten. -/
example : ((start 2 0).run [.record 1, .record 2, .undo, .undo, .record 3, .redo, .undo]).1 =
    [none, none, some 1, none, none, none, some 1] := rfl

end History

end Rulebook
