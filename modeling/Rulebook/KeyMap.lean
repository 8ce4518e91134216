/-!
# Rulebook — KeyMap

Finite maps from strings, held as a list of entries in strictly increasing order of their keys
(code point order).  Two maps with the same entries are equal, so equality of maps is decided
entry by entry, and walking a map meets its keys in order.

* `get?_insert_self`, `get?_insert_of_ne`: what an insertion does to the view `get?`.
* `get?_erase_self`, `get?_erase_of_ne`: the same for an erasure.
-/

namespace Rulebook

/-- Keys never repeat and never go down. -/
structure KeyMap (α : Type) where
  entries : List (String × α)
  sorted : entries.Pairwise (fun a b => a.1 < b.1)
  deriving DecidableEq

namespace KeyMap

variable {α β : Type}

instance [Repr α] : Repr (KeyMap α) := ⟨fun m p => reprPrec m.entries p⟩

/-! ### Entry lists -/

/-- The value of the first entry with key `k`. -/
def find (k : String) : List (String × α) → Option α
  | [] => none
  | (k', v) :: rest => if k = k' then some v else find k rest

/-- Puts an entry before the first larger key, in place of an entry with the same key. -/
def place (k : String) (v : α) : List (String × α) → List (String × α)
  | [] => [(k, v)]
  | (k', v') :: rest =>
    if k < k' then (k, v) :: (k', v') :: rest
    else if k = k' then (k, v) :: rest
    else (k', v') :: place k v rest

/-- Drops every entry with key `k`. -/
def drop (k : String) (l : List (String × α)) : List (String × α) :=
  l.filter fun e => e.1 != k

theorem mem_place {k : String} {v : α} {e : String × α} {l : List (String × α)}
    (h : e ∈ place k v l) : e = (k, v) ∨ e ∈ l := by
  induction l with
  | nil => simpa [place] using h
  | cons hd tl ih =>
    obtain ⟨k', v'⟩ := hd
    rw [place] at h
    split at h
    · simpa using h
    · split at h
      · rcases List.mem_cons.1 h with h | h
        · exact .inl h
        · exact .inr (List.mem_cons_of_mem _ h)
      · rcases List.mem_cons.1 h with h | h
        · exact .inr (h ▸ List.mem_cons_self)
        · rcases ih h with h | h
          · exact .inl h
          · exact .inr (List.mem_cons_of_mem _ h)

theorem lt_of_not_lt_of_ne {a b : String} (h : ¬ a < b) (hne : a ≠ b) : b < a := by
  rcases Classical.em (b < a) with h' | h'
  · exact h'
  · exact absurd (String.le_antisymm (String.not_lt.1 h') (String.not_lt.1 h)) hne

theorem pairwise_place (k : String) (v : α) {l : List (String × α)}
    (h : l.Pairwise (fun a b => a.1 < b.1)) :
    (place k v l).Pairwise (fun a b => a.1 < b.1) := by
  induction l with
  | nil => simp [place]
  | cons hd tl ih =>
    obtain ⟨k', v'⟩ := hd
    obtain ⟨hlt, htl⟩ := List.pairwise_cons.1 h
    rw [place]
    split
    · rename_i hk
      refine List.pairwise_cons.2 ⟨fun e he => ?_, h⟩
      rcases List.mem_cons.1 he with rfl | he
      · exact hk
      · exact String.lt_trans hk (hlt e he)
    · rename_i hk
      split
      · rename_i hkk
        subst hkk
        exact List.pairwise_cons.2 ⟨fun e he => hlt e he, htl⟩
      · rename_i hne
        refine List.pairwise_cons.2 ⟨fun e he => ?_, ih htl⟩
        rcases mem_place he with rfl | he
        · exact lt_of_not_lt_of_ne hk hne
        · exact hlt e he

theorem find_place_self (k : String) (v : α) (l : List (String × α)) :
    find k (place k v l) = some v := by
  induction l with
  | nil => simp [place, find]
  | cons hd tl ih =>
    obtain ⟨k', v'⟩ := hd
    rw [place]
    split
    · simp [find]
    · split
      · simp [find]
      · rename_i hne
        simp [find, hne, ih]

theorem find_place_of_ne {k k' : String} (h : k' ≠ k) (v : α) (l : List (String × α)) :
    find k' (place k v l) = find k' l := by
  induction l with
  | nil => simp [place, find, h]
  | cons hd tl ih =>
    obtain ⟨k'', v''⟩ := hd
    rw [place]
    split
    · simp [find, h]
    · split
      · rename_i hk
        subst hk
        simp [find, h]
      · simp [find, ih]

theorem find_drop_self (k : String) (l : List (String × α)) : find k (drop k l) = none := by
  induction l with
  | nil => rfl
  | cons hd tl ih =>
    obtain ⟨k', v'⟩ := hd
    by_cases hk : k' = k
    · subst hk
      simpa [drop] using ih
    · have hk' : k ≠ k' := fun e => hk e.symm
      simpa [drop, hk, find, hk'] using ih

theorem find_drop_of_ne {k k' : String} (h : k' ≠ k) (l : List (String × α)) :
    find k' (drop k l) = find k' l := by
  induction l with
  | nil => rfl
  | cons hd tl ih =>
    obtain ⟨k'', v''⟩ := hd
    by_cases hk : k'' = k
    · subst hk
      have : find k' (drop k'' tl) = find k' tl := ih
      simpa [drop, find, h] using this
    · by_cases hk' : k' = k''
      · subst hk'
        simp [drop, hk, find]
      · have : find k' (drop k tl) = find k' tl := ih
        simpa [drop, hk, find, hk'] using this

/-! ### Maps -/

/-- The map without entries. -/
def empty : KeyMap α := ⟨[], .nil⟩

instance : EmptyCollection (KeyMap α) := ⟨empty⟩
instance : Inhabited (KeyMap α) := ⟨empty⟩

/-- The value at `k`. -/
def get? (m : KeyMap α) (k : String) : Option α := find k m.entries

/-- Whether `k` is a key. -/
def contains (m : KeyMap α) (k : String) : Bool := (m.get? k).isSome

/-- Sets the value at `k`. -/
def insert (m : KeyMap α) (k : String) (v : α) : KeyMap α :=
  ⟨place k v m.entries, pairwise_place k v m.sorted⟩

/-- Removes the entry at `k`, if there is one. -/
def erase (m : KeyMap α) (k : String) : KeyMap α :=
  ⟨drop k m.entries, m.sorted.filter _⟩

/-- Changes the value at `k`, if there is one. -/
def modify (m : KeyMap α) (k : String) (f : α → α) : KeyMap α :=
  match m.get? k with
  | none => m
  | some v => m.insert k (f v)

/-- The map of a list of entries; of two with the same key the later one stays. -/
def ofList (l : List (String × α)) : KeyMap α :=
  l.foldl (fun m e => m.insert e.1 e.2) empty

/-- The keys, in increasing order. -/
def keys (m : KeyMap α) : List String := m.entries.map Prod.fst

/-- The values, in the order of their keys. -/
def values (m : KeyMap α) : List α := m.entries.map Prod.snd

/-- The number of entries. -/
def size (m : KeyMap α) : Nat := m.entries.length

/-- Whether there is no entry. -/
def isEmpty (m : KeyMap α) : Bool := m.entries.isEmpty

@[simp] theorem get?_empty (k : String) : (empty : KeyMap α).get? k = none := rfl

@[simp] theorem get?_insert_self (m : KeyMap α) (k : String) (v : α) :
    (m.insert k v).get? k = some v := find_place_self k v m.entries

theorem get?_insert_of_ne (m : KeyMap α) {k k' : String} (h : k' ≠ k) (v : α) :
    (m.insert k v).get? k' = m.get? k' := find_place_of_ne h v m.entries

@[simp] theorem get?_erase_self (m : KeyMap α) (k : String) : (m.erase k).get? k = none :=
  find_drop_self k m.entries

theorem get?_erase_of_ne (m : KeyMap α) {k k' : String} (h : k' ≠ k) :
    (m.erase k).get? k' = m.get? k' := find_drop_of_ne h m.entries

end KeyMap

end Rulebook
