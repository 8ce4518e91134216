/-!
# Rulebook — Editor — History

A line of past and future values around a current one, of bounded length.  Recording a value
forgets the future, and the oldest values once there are more than the capacity allows.
-/

namespace Rulebook

/-- Values in order of their time, with the place of the current one among them. -/
structure History (α : Type) where
  entries : List α
  cursor : Nat
  capacity : Nat
  inRange : cursor < entries.length
  capacity_pos : 0 < capacity

namespace History

variable {α : Type}

/-- The history of one value.  There is room for that one at least. -/
def start (capacity : Nat) (a : α) : History α where
  entries := [a]
  cursor := 0
  capacity := max 1 capacity
  inRange := Nat.zero_lt_one
  capacity_pos := Nat.lt_of_lt_of_le Nat.zero_lt_one (Nat.le_max_left 1 capacity)

/-- The last values of a list, no more than `capacity`. -/
def newest (capacity : Nat) (l : List α) : List α := l.drop (l.length - capacity)

theorem length_newest (capacity : Nat) (l : List α) :
    (newest capacity l).length = min capacity l.length := by
  simp only [newest, List.length_drop]
  omega

/-- The entries after a value is recorded: those up to the current one, and the value. -/
def entriesWith (h : History α) (a : α) : List α :=
  newest h.capacity (h.entries.take (h.cursor + 1) ++ [a])

theorem length_entriesWith (h : History α) (a : α) :
    (h.entriesWith a).length = min h.capacity (h.cursor + 2) := by
  have := h.inRange
  simp only [entriesWith, length_newest, List.length_append, List.length_take, List.length_cons,
    List.length_nil]
  omega

/-- Makes a value the current one and the last one. -/
def record (h : History α) (a : α) : History α where
  entries := h.entriesWith a
  cursor := (h.entriesWith a).length - 1
  capacity := h.capacity
  inRange := by
    have := h.capacity_pos
    rw [length_entriesWith]
    omega
  capacity_pos := h.capacity_pos

/-- The current value. -/
def current (h : History α) : α := h.entries.get ⟨h.cursor, h.inRange⟩

/-- Whether there is a value before the current one. -/
def canUndo (h : History α) : Bool := 0 < h.cursor

/-- Whether there is a value after the current one. -/
def canRedo (h : History α) : Bool := h.cursor + 1 < h.entries.length

/-- The history with the value before as the current one. -/
def undo? (h : History α) : Option (History α) :=
  if 0 < h.cursor then
    some { h with
      cursor := h.cursor - 1
      inRange := Nat.lt_of_le_of_lt (Nat.sub_le _ _) h.inRange }
  else none

/-- The history with the value after as the current one. -/
def redo? (h : History α) : Option (History α) :=
  if later : h.cursor + 1 < h.entries.length then
    some { h with
      cursor := h.cursor + 1
      inRange := later }
  else none

/-- The number of values. -/
def size (h : History α) : Nat := h.entries.length

/-- Whether there is no value, which never happens. -/
def isEmpty (h : History α) : Bool := h.entries.isEmpty

end History

end Rulebook
