import Rulebook.Proofs.KeyMap
import Rulebook.Proofs.Node.Grove

/-!
# Rulebook — Proofs — Node — Store

A store of nodes with a list of roots that stands for a grove: the roots are the grove's, and the
entries are those of its vertices.

* `treesAt_eq`, `Stored.eq`: the grove is read back from the store, so there is only one.
* `subtree_perm`: the ids below a node are those of its subtree.
* `references_perm`: every id of a grove is referenced once.
-/

namespace Rulebook

/-- The part of a node that is not a link. -/
def Node.vertex (n : Node) : Vertex := ⟨n.id, n.label, n.note, n.config⟩

/-- The store and the roots of a grove. -/
structure Stored (ts : List Branch) (nodes : Forest) (roots : List String) : Prop where
  roots_eq : roots = ts.map Branch.id
  entries_perm : nodes.entries.Perm (Grove.entries none ts)

namespace Forest

open Grove

variable {a : Option String} {nodes : Forest} {ts : List Branch}

/-- The trees below several ids, down to a number of levels. -/
def treesAt (nodes : Forest) : (levels : Nat) → List String → List Branch
  | 0, _ => []
  | levels + 1, ids => ids.filterMap fun id =>
    (nodes.get? id).map fun n => ⟨n.vertex, treesAt nodes levels n.childIds⟩

/-! ### Reading back -/

/-- The grove whose entries a store contains, read back. -/
theorem treesAt_eq {levels : Nat} (h : entries a ts ⊆ nodes.entries)
    (hl : (ids ts).length ≤ levels) : treesAt nodes levels (ts.map Branch.id) = ts := by
  induction levels generalizing a ts with
  | zero =>
      cases ts with
      | nil => rfl
      | cons t ts => simp [ids_cons] at hl
  | succ levels ih =>
      rw [treesAt, List.filterMap_map]
      have hsome : ∀ t ∈ ts, ((fun id => (nodes.get? id).map fun n =>
          (⟨n.vertex, treesAt nodes levels n.childIds⟩ : Branch)) ∘ Branch.id) t = some t := by
        intro t ht
        have hp := mem_places_of_mem a ht
        have hsub : entries (some t.id) t.children ⊆ nodes.entries := fun e he => by
          refine h (entries_subset hp ?_)
          rw [entries_cons, entries_nil, List.append_nil]
          exact List.mem_cons_of_mem _ he
        -- a tree's children have fewer vertices than the grove, so a level less will do
        have hlt : (ids t.children).length ≤ levels := by
          have := (ids_sublist hp).length_le
          rw [ids_cons, List.length_cons, List.length_append] at this
          omega
        have hget : nodes.get? t.id = some (t.node a) :=
          KeyMap.get?_eq_some_iff.mpr (h (mem_entries hp))
        rw [Function.comp_apply, hget, Option.map_some, Branch.childIds_node, ih hsub hlt]
        cases t
        rfl
      rw [List.filterMap_congr hsome, List.filterMap_some]

end Forest

namespace Stored

open Grove

variable {nodes : Forest} {roots : List String} {ts us : List Branch}

/-- The keys of a grove's store are its ids, in some order. -/
theorem keys_perm (h : Stored ts nodes roots) : nodes.keys.Perm (ids ts) :=
  keys_entries none ts ▸ KeyMap.keys_perm h.entries_perm

/-- No id of a grove with a store is repeated. -/
theorem nodup (h : Stored ts nodes roots) : (ids ts).Nodup := h.keys_perm.nodup nodes.nodup_keys

/-- A grove has as many ids as its store has nodes. -/
theorem length_ids (h : Stored ts nodes roots) : (ids ts).length = nodes.size := by
  rw [← h.keys_perm.length_eq, KeyMap.keys, List.length_map, KeyMap.size]

/-- An id is in the store exactly if it is in the grove. -/
theorem contains_iff (h : Stored ts nodes roots) {p : String} :
    nodes.contains p = true ↔ p ∈ ids ts :=
  KeyMap.contains_iff_mem_keys.trans h.keys_perm.mem_iff

/-- The nodes of the store are those of the places. -/
theorem get?_eq_some_iff (h : Stored ts nodes roots) {p : String} {n : Node} :
    nodes.get? p = some n ↔ ∃ q t, ⟨q, t⟩ ∈ places none ts ∧ t.id = p ∧ t.node q = n := by
  rw [KeyMap.get?_eq_some_iff, h.entries_perm.mem_iff, entries, List.mem_map]
  constructor
  · rintro ⟨⟨q, t⟩, ht, he⟩
    cases he
    exact ⟨q, t, ht, rfl, rfl⟩
  · rintro ⟨q, t, ht, rfl, rfl⟩
    exact ⟨⟨q, t⟩, ht, rfl⟩

/-- Under the id of a subtree the store has the subtree's node. -/
theorem get?_eq_some (h : Stored ts nodes roots) {q : Option String} {t : Branch}
    (ht : ⟨q, t⟩ ∈ places none ts) : nodes.get? t.id = some (t.node q) :=
  h.get?_eq_some_iff.mpr ⟨q, t, ht, rfl, rfl⟩

/-- Every node is kept under its own id. -/
theorem key (h : Stored ts nodes roots) : ∀ e ∈ nodes.entries, e.2.id = e.1 := fun e he => by
  obtain ⟨⟨q, t⟩, -, rfl⟩ := List.mem_map.mp (h.entries_perm.subset he)
  rfl

/-- The entries of a subtree are in the store. -/
theorem entries_subset (h : Stored ts nodes roots) {q : Option String} {t : Branch}
    (ht : ⟨q, t⟩ ∈ places none ts) : entries q [t] ⊆ nodes.entries := fun _ he =>
  h.entries_perm.symm.subset (Grove.entries_subset ht he)

/-- **The grove of a store is read back from it.** -/
theorem treesAt_eq (h : Stored ts nodes roots) : nodes.treesAt nodes.size roots = ts := by
  rw [h.roots_eq]
  exact Forest.treesAt_eq (a := none) h.entries_perm.symm.subset (Nat.le_of_eq h.length_ids)

/-- A store stands for one grove at most. -/
theorem eq (h : Stored ts nodes roots) (h' : Stored us nodes roots) : ts = us :=
  h.treesAt_eq.symm.trans h'.treesAt_eq

end Stored

/-! ### References and descendants -/

namespace Grove

variable {a : Option String} {nodes : Forest} {t : Branch} {ts : List Branch}

/-- The references in entries. -/
def linksOf (l : List (String × Node)) : List String := l.flatMap fun e => e.2.childIds

/-- **Every vertex is a root or a child, and only once.** -/
theorem references_perm (a : Option String) (ts : List Branch) :
    (ids ts).Perm (ts.map Branch.id ++ linksOf (entries a ts)) := by
  induction ts using induction generalizing a with
  | nil => exact .refl _
  | cons v cs ts ihc iht =>
      have hl : linksOf (entries a (⟨v, cs⟩ :: ts)) =
          cs.map Branch.id ++ linksOf (entries (some v.id) cs) ++ linksOf (entries a ts) := by
        simp only [linksOf, entries_cons, List.flatMap_cons, List.flatMap_append,
          Branch.childIds_node, List.append_assoc]
        rfl
      rw [ids_mk, hl, List.map_cons, List.cons_append]
      refine List.Perm.cons v.id ?_
      refine ((ihc (some v.id)).append (iht a)).trans ?_
      rw [← List.append_assoc, ← List.append_assoc]
      exact List.perm_append_comm.append_right _

/-- Every vertex is at the top or one of the links. -/
theorem length_linksOf (a : Option String) (ts : List Branch) :
    ts.length + (linksOf (entries a ts)).length = (ids ts).length := by
  rw [(references_perm a ts).length_eq, List.length_append, List.length_map]

end Grove

namespace Forest

open Grove

variable {a : Option String} {nodes : Forest} {t : Branch} {ts : List Branch}

theorem referenceCount_eq (nodes : Forest) :
    nodes.referenceCount = (linksOf nodes.entries).length := by
  simp [referenceCount, linksOf, KeyMap.values, List.length_flatMap, Node.childIds,
    Function.comp_def]

/-- The walk over a grove that a store contains meets each of its ids, those of the last tree first.
-/
theorem exists_reach_places (h : entries a ts ⊆ nodes.entries) :
    ∃ found : List String, found.Perm (ids ts) ∧
      ∀ (fuel : Nat) (pending seen : List String), (seen ++ ids ts).Nodup →
        reach nodes (fuel + (ids ts).length) ((ts.map Branch.id).reverse ++ pending) seen =
          reach nodes fuel pending (seen ++ found) := by
  induction ts using induction generalizing a with
  | nil => exact ⟨[], .refl _, fun _ _ _ _ => by simp⟩
  | cons v cs ts ihc iht =>
      rw [entries_cons, List.cons_subset, List.append_subset] at h
      obtain ⟨hv, hc, ht⟩ := h
      obtain ⟨inner, inner_perm, walk_inner⟩ := ihc hc
      obtain ⟨later, later_perm, walk_later⟩ := iht ht
      have hget : nodes.get? v.id = some (Branch.node a ⟨v, cs⟩) := KeyMap.get?_eq_some_iff.mpr hv
      have perm : (later ++ v.id :: inner).Perm (ids (⟨v, cs⟩ :: ts)) := by
        rw [ids_mk]
        exact (later_perm.append (inner_perm.cons _)).trans List.perm_append_comm
      refine ⟨later ++ v.id :: inner, perm, fun fuel pending seen nodup => ?_⟩
      have nodup : (seen ++ later ++ v.id :: inner).Nodup := by
        rw [List.append_assoc]
        exact (perm.append_left seen).nodup_iff.mpr nodup
      have nodup_later : (seen ++ ids ts).Nodup :=
        (later_perm.append_left seen).nodup_iff.mp (nodup.sublist (List.sublist_append_left _ _))
      have nodup_inner : (seen ++ later ++ [v.id] ++ ids cs).Nodup := by
        rw [List.append_assoc _ [v.id]]
        exact ((inner_perm.cons v.id).append_left _).nodup_iff.mp nodup
      have new : (seen ++ later).contains v.id = false := by
        rw [Bool.eq_false_iff, ne_eq, List.contains_iff_mem]
        exact fun hm => List.disjoint_of_nodup_append nodup hm List.mem_cons_self
      have enough : fuel + (ids (⟨v, cs⟩ :: ts)).length =
          (fuel + (ids cs).length + 1) + (ids ts).length := by
        rw [ids_mk, List.length_cons, List.length_append]
        omega
      -- the other trees come first, then the vertex, then its children's trees
      rw [enough, List.map_cons, List.reverse_cons, List.append_assoc, List.singleton_append,
        walk_later _ _ _ nodup_later, Branch.id_mk, reach, new, if_neg Bool.false_ne_true, hget]
      simp only [Branch.childIds_node]
      rw [walk_inner _ _ _ nodup_inner]
      simp only [List.append_assoc, List.singleton_append]

/-- **The ids below a node are those of its subtree.** -/
theorem subtree_perm {rest : List (String × Node)}
    (h : nodes.entries.Perm (entries a [t] ++ rest)) : (nodes.subtree t.id).Perm (ids [t]) := by
  have nodup : (ids [t]).Nodup := by
    have := (KeyMap.keys_perm h).nodup nodes.nodup_keys
    rw [List.map_append, keys_entries] at this
    exact (List.nodup_append.mp this).1
  -- every vertex but the root is referenced, so there is fuel for all of them
  have hcount : (ids [t]).length ≤ nodes.referenceCount + 1 := by
    have hlen := length_linksOf a [t]
    have : (linksOf (entries a [t])).length ≤ (linksOf nodes.entries).length := by
      rw [linksOf, linksOf, (h.flatMap_right _).length_eq, List.flatMap_append,
        List.length_append]
      exact Nat.le_add_right _ _
    rw [referenceCount_eq, ← hlen, List.length_singleton]
    omega
  obtain ⟨fuel, hfuel⟩ := Nat.exists_eq_add_of_le hcount
  have hsub : entries a [t] ⊆ nodes.entries := fun e he =>
    h.symm.subset (List.mem_append_left _ he)
  obtain ⟨found, perm, walk⟩ := exists_reach_places hsub
  have hf : fuel + 1 + (ids [t]).length = nodes.referenceCount + 2 := by omega
  have whole := walk (fuel + 1) [] [] (by simpa using nodup)
  rw [hf] at whole
  have found_eq : nodes.subtree t.id = found := whole
  exact found_eq ▸ perm

end Forest

end Rulebook
