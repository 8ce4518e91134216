import Rulebook.KeyMap

/-!
# Rulebook — Proofs — KeyMap

Maps by their entries.  What an operation does to the entries is said up to their order, which the
keys determine.

* `ofList_of_perm`: a map is built anew from its own entries.
* `ext_perm`: two maps with the same entries are equal.
* `insert_perm`, `insert_perm_of_cons`: an insertion adds an entry, or puts it in place of another.
-/

namespace Rulebook.KeyMap

variable {α : Type}

/-! ### Entries up to their order -/

theorem ne_of_lt {a b : String} (h : a < b) : a ≠ b := by
  rintro rfl
  exact String.lt_irrefl a h

theorem nodup_keys (m : KeyMap α) : m.keys.Nodup :=
  List.pairwise_map.mpr (m.sorted.imp fun h => ne_of_lt h)

/-- **Two maps with the same entries are equal.** -/
theorem ext_perm {m n : KeyMap α} (h : m.entries.Perm n.entries) : m = n := by
  have e : m.entries = n.entries := h.eq_of_pairwise
    (fun a b _ _ hab hba => absurd hba (String.lt_asymm hab)) m.sorted n.sorted
  cases m
  cases n
  cases e
  rfl

theorem find_eq_some_iff {k : String} {v : α} {l : List (String × α)}
    (h : (l.map Prod.fst).Nodup) : find k l = some v ↔ (k, v) ∈ l := by
  induction l with
  | nil => simp [find]
  | cons e l ih =>
      obtain ⟨k', v'⟩ := e
      obtain ⟨hk, hl⟩ := List.nodup_cons.mp h
      by_cases hkk : k = k'
      · subst hkk
        have hne : (k, v) ∉ l := fun hm => hk (List.mem_map.mpr ⟨(k, v), hm, rfl⟩)
        simp [find, hne, eq_comm]
      · simp [find, hkk, ih hl]

/-- A value is found under a key exactly if the two are an entry. -/
theorem get?_eq_some_iff {m : KeyMap α} {k : String} {v : α} :
    m.get? k = some v ↔ (k, v) ∈ m.entries := find_eq_some_iff m.nodup_keys

theorem contains_iff_mem_keys {m : KeyMap α} {k : String} :
    m.contains k = true ↔ k ∈ m.keys := by
  rw [contains, Option.isSome_iff_exists, keys, List.mem_map]
  constructor
  · rintro ⟨v, hv⟩
    exact ⟨(k, v), get?_eq_some_iff.mp hv, rfl⟩
  · rintro ⟨⟨k', v⟩, he, rfl⟩
    exact ⟨v, get?_eq_some_iff.mpr he⟩

theorem contains_insert {m : KeyMap α} {k : String} (h : m.contains k = true) (k' : String)
    (v : α) : (m.insert k' v).contains k = true := by
  rw [contains] at h ⊢
  by_cases hk : k = k'
  · subst hk
    rw [get?_insert_self]
    rfl
  · rwa [get?_insert_of_ne m hk]

theorem contains_modify {m : KeyMap α} {k : String} (h : m.contains k = true) (k' : String)
    (f : α → α) : (m.modify k' f).contains k = true := by
  rw [modify]
  split
  · exact h
  · exact contains_insert h k' _

/-- Nothing is found under a key exactly if it is none of the keys. -/
theorem get?_eq_none_iff {m : KeyMap α} {k : String} : m.get? k = none ↔ k ∉ m.keys := by
  rw [← contains_iff_mem_keys, contains]
  cases m.get? k <;> simp

theorem keys_perm {m : KeyMap α} {l : List (String × α)} (h : m.entries.Perm l) :
    m.keys.Perm (l.map Prod.fst) := h.map Prod.fst

theorem drop_of_forall_ne {k : String} {l : List (String × α)} (h : ∀ e ∈ l, e.1 ≠ k) :
    drop k l = l :=
  List.filter_eq_self.mpr fun e he => bne_iff_ne.mpr (h e he)

theorem place_perm (k : String) (v : α) {l : List (String × α)}
    (h : l.Pairwise fun a b => a.1 < b.1) : (place k v l).Perm ((k, v) :: drop k l) := by
  induction l with
  | nil => exact .refl _
  | cons e l ih =>
      obtain ⟨k', v'⟩ := e
      obtain ⟨hlt, hl⟩ := List.pairwise_cons.mp h
      rw [place]
      split
      · rename_i hk
        have hd : drop k ((k', v') :: l) = (k', v') :: l := drop_of_forall_ne fun e he hek => by
          rcases List.mem_cons.mp he with rfl | he
          · exact ne_of_lt hk hek.symm
          · exact ne_of_lt (String.lt_trans hk (hlt e he)) hek.symm
        rw [hd]
      · split
        · rename_i hk
          subst hk
          have hd : drop k l = l := drop_of_forall_ne fun e he hek =>
            ne_of_lt (hlt e he) hek.symm
          have : drop k ((k, v') :: l) = drop k l := by simp [drop]
          rw [this, hd]
        · rename_i hk
          have : drop k ((k', v') :: l) = (k', v') :: drop k l := by
            simp [drop, Ne.symm hk]
          rw [this]
          exact ((ih hl).cons (k', v')).trans (.swap (k, v) (k', v') (drop k l))

/-- A new key's entry is added. -/
theorem insert_perm {m : KeyMap α} {k : String} {l : List (String × α)} (h : m.entries.Perm l)
    (hk : k ∉ l.map Prod.fst) (v : α) : (m.insert k v).entries.Perm ((k, v) :: l) := by
  have hd : drop k m.entries = m.entries := drop_of_forall_ne fun e he hek =>
    hk (hek ▸ List.mem_map_of_mem (h.subset he))
  refine (place_perm k v m.sorted).trans ?_
  rw [hd]
  exact h.cons (k, v)

theorem foldl_insert_perm {l : List (String × α)} {m : KeyMap α}
    (h : ((m.entries ++ l).map Prod.fst).Nodup) :
    (l.foldl (fun m e => m.insert e.1 e.2) m).entries.Perm (m.entries ++ l) := by
  induction l generalizing m with
  | nil => simp
  | cons e l ih =>
      have moved : (m.entries ++ e :: l).Perm ((e :: m.entries) ++ l) := List.perm_middle
      have keys : (((e :: m.entries) ++ l).map Prod.fst).Nodup :=
        (moved.map Prod.fst).nodup_iff.mp h
      have inserted : (m.insert e.1 e.2).entries.Perm (e :: m.entries) :=
        insert_perm (.refl _) (by simp_all) e.2
      refine (ih ?_).trans ((inserted.append_right l).trans moved.symm)
      exact ((inserted.append_right l).map Prod.fst).nodup_iff.mpr keys

/-- **A map is built anew from its own entries**, whatever order they come in. -/
theorem ofList_of_perm {m : KeyMap α} {l : List (String × α)} (h : l.Perm m.entries) :
    ofList l = m := by
  have keys : (l.map Prod.fst).Nodup := (h.map Prod.fst).nodup_iff.mpr m.nodup_keys
  exact ext_perm ((foldl_insert_perm (m := empty) keys).trans h)

/-- A map is made of its own entries. -/
theorem ofList_entries (m : KeyMap α) : ofList m.entries = m := ofList_of_perm (.refl _)

theorem drop_perm_of_cons {m : KeyMap α} {k : String} {v : α} {l : List (String × α)}
    (h : m.entries.Perm ((k, v) :: l)) : (drop k m.entries).Perm l := by
  have hk : k ∉ l.map Prod.fst := (List.nodup_cons.mp ((keys_perm h).nodup m.nodup_keys)).1
  refine (h.filter _).trans ?_
  have hd : drop k l = l := drop_of_forall_ne fun e he hek => hk (hek ▸ List.mem_map_of_mem he)
  have : drop k ((k, v) :: l) = drop k l := by simp [drop]
  exact .of_eq (this.trans hd)

/-- The entry of a known key is replaced. -/
theorem insert_perm_of_cons {m : KeyMap α} {k : String} {v : α} {l : List (String × α)}
    (h : m.entries.Perm ((k, v) :: l)) (v' : α) :
    (m.insert k v').entries.Perm ((k, v') :: l) :=
  (place_perm k v' m.sorted).trans ((drop_perm_of_cons h).cons (k, v'))

theorem modify_perm_of_cons {m : KeyMap α} {k : String} {v : α} {l : List (String × α)}
    (h : m.entries.Perm ((k, v) :: l)) (f : α → α) :
    (m.modify k f).entries.Perm ((k, f v) :: l) := by
  have hv : m.get? k = some v := get?_eq_some_iff.mpr (h.mem_iff.mpr List.mem_cons_self)
  rw [modify, hv]
  exact insert_perm_of_cons h (f v)

/-- A map of entries holds no others. -/
theorem mem_of_mem_ofList {l : List (String × α)} :
    ∀ e ∈ (ofList l).entries, e ∈ l := by
  have insertions (l : List (String × α)) (m : KeyMap α) :
      ∀ e ∈ (l.foldl (fun m e => m.insert e.1 e.2) m).entries, e ∈ m.entries ∨ e ∈ l := by
    induction l generalizing m with
    | nil => exact fun e he => .inl he
    | cons a l ih =>
        intro e he
        rcases ih (m.insert a.1 a.2) e he with he | he
        · rcases List.mem_cons.mp ((place_perm a.1 a.2 m.sorted).mem_iff.mp he) with rfl | he
          · exact .inr List.mem_cons_self
          · exact .inl ((List.mem_filter.mp he).1)
        · exact .inr (List.mem_cons_of_mem a he)
  exact fun e he => (insertions l empty e he).resolve_left (List.not_mem_nil)

/-- Erasing several keys leaves the entries with other keys. -/
theorem entries_foldl_erase (ks : List String) (m : KeyMap α) :
    (ks.foldl erase m).entries = m.entries.filter fun e => e.1 ∉ ks := by
  induction ks generalizing m with
  | nil => exact (List.filter_eq_self.mpr fun _ _ => by simp).symm
  | cons k ks ih =>
      have hk : (m.erase k).entries = m.entries.filter fun e => e.1 != k := rfl
      rw [List.foldl_cons, ih, hk, List.filter_filter]
      exact List.filter_congr fun e _ => by simp [bne, Bool.and_comm, Bool.beq_eq_decide_eq]

end Rulebook.KeyMap
