/-!
# Rulebook — Sorting

A stable sort: equal items stay in the order in which they came.
-/

namespace Rulebook

/-- Puts an item in front of the first one that it does not come after. -/
def insertSorted (le : α → α → Bool) (a : α) : List α → List α
  | [] => [a]
  | b :: bs => if le a b then a :: b :: bs else b :: insertSorted le a bs

/-- The items in order. -/
def sortStable (le : α → α → Bool) : List α → List α
  | [] => []
  | a :: as => insertSorted le a (sortStable le as)

theorem mem_insertSorted {le : α → α → Bool} {a b : α} {l : List α} :
    b ∈ insertSorted le a l ↔ b = a ∨ b ∈ l := by
  induction l with
  | nil => simp [insertSorted]
  | cons c cs ih =>
    rw [insertSorted]
    split
    · simp
    · simp only [List.mem_cons, ih]
      constructor <;> rintro (h | h | h) <;> simp [h]

theorem mem_sortStable {le : α → α → Bool} {b : α} {l : List α} :
    b ∈ sortStable le l ↔ b ∈ l := by
  induction l with
  | nil => simp [sortStable]
  | cons a as ih => simp [sortStable, mem_insertSorted, ih]

end Rulebook
