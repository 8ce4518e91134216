import Rulebook.Proofs.Node.Cycles
import Rulebook.Proofs.Node.Store

/-!
# Rulebook — Proofs — Node — Structure

A store and its roots without problems are those of a grove.  The problems are local, and one kind
of them each is missing exactly if the links agree in one way.

* `structureProblems_eq_nil_iff`: no problem is found exactly if the links agree in every way.
* `Stored.linked`: the links of a grove's store agree.
-/

namespace Rulebook.Forest

open Grove

variable {nodes : Forest} {roots refs : List String}

/-- The ways in which the links between nodes, and from the roots to them, agree. -/
structure Linked (nodes : Forest) (roots : List String) : Prop where
  root : ∀ r ∈ roots, ∃ n, nodes.get? r = some n ∧ n.parent = none
  child : ∀ p n, nodes.get? p = some n → ∀ c ∈ n.childIds,
    ∃ m, nodes.get? c = some m ∧ m.parent = some p
  parent : ∀ c n p, nodes.get? c = some n → n.parent = some p →
    ∃ m, nodes.get? p = some m ∧ c ∈ m.childIds
  nodup : (references nodes roots).Nodup
  listed : ∀ id ∈ nodes.keys, id ∈ references nodes roots
  wellFounded : WellFounded (ChildOf nodes)

/-! ### The problems, kind by kind -/

/-- No root is reported exactly if each is the id of a node without a parent. -/
theorem rootProblems_eq_nil_iff : rootProblems nodes roots = [] ↔
    ∀ r ∈ roots, ∃ n, nodes.get? r = some n ∧ n.parent = none := by
  rw [rootProblems, List.filterMap_eq_nil_iff]
  refine forall₂_congr fun r _ => ?_
  cases h : nodes.get? r with
  | none => simp
  | some n => simp

/-- No child of a node is reported exactly if each is the id of a node that names it as its parent.
-/
theorem childProblems_eq_nil_iff {p : String} {n : Node} : childProblems nodes p n = [] ↔
    ∀ c ∈ n.childIds, ∃ m, nodes.get? c = some m ∧ m.parent = some p := by
  rw [childProblems, List.filterMap_eq_nil_iff]
  refine forall₂_congr fun c _ => ?_
  cases h : nodes.get? c with
  | none => simp
  | some m => simp

/-- A node's parent is not reported exactly if that is there and lists the node. -/
theorem parentProblems_eq_nil_iff {c : String} {n : Node} : parentProblems nodes c n = [] ↔
    ∀ p, n.parent = some p → ∃ m, nodes.get? p = some m ∧ c ∈ m.childIds := by
  rw [parentProblems]
  cases n.parent with
  | none => simp
  | some p =>
      cases h : nodes.get? p with
      | none => simp [h]
      | some m => simp [h]

/-- The count of an id is the number of times that it is referenced. -/
theorem getD_referenceCounts (refs : List String) (id : String) :
    ((referenceCounts refs).get? id).getD 0 = refs.count id := by
  have step : ∀ counts : KeyMap Nat, ((refs.foldl (fun counts id =>
      counts.insert id ((counts.get? id).getD 0 + 1)) counts).get? id).getD 0 =
      (counts.get? id).getD 0 + refs.count id := by
    induction refs with
    | nil => exact fun _ => rfl
    | cons r refs ih =>
        intro counts
        rw [List.foldl_cons, ih, List.count_cons]
        by_cases hr : r = id
        · subst hr
          rw [KeyMap.get?_insert_self, Option.getD_some, beq_self_eq_true, if_pos rfl]
          omega
        · have hb : (r == id) = false := beq_eq_false_iff_ne.mpr hr
          rw [KeyMap.get?_insert_of_ne _ (Ne.symm hr), hb, if_neg Bool.false_ne_true]
          omega
  exact (step ∅).trans (Nat.zero_add _)

/-- No id is reported as referenced twice exactly if none is. -/
theorem duplicates_eq_nil_iff : duplicates refs = [] ↔ refs.Nodup := by
  rw [duplicates, List.map_eq_nil_iff, List.filter_eq_nil_iff, List.nodup_iff_count_le_one]
  constructor
  · intro h id
    cases hget : (referenceCounts refs).get? id with
    | none =>
        rw [← getD_referenceCounts, hget]
        exact Nat.zero_le 1
    | some n =>
        have := h (id, n) (KeyMap.get?_eq_some_iff.mp hget)
        rw [← getD_referenceCounts, hget]
        simpa using this
  · rintro h ⟨id, n⟩ he
    have hget := KeyMap.get?_eq_some_iff.mpr he
    have := h id
    rw [← getD_referenceCounts, hget] at this
    simpa using this

/-- No node is reported as an orphan exactly if all are referenced. -/
theorem orphans_eq_nil_iff : orphans nodes refs = [] ↔ ∀ id ∈ nodes.keys, id ∈ refs := by
  rw [orphans, List.map_eq_nil_iff, List.filter_eq_nil_iff]
  refine forall₂_congr fun id _ => ?_
  simp

/-- **No problem is found exactly if the links agree in every way.** -/
theorem structureProblems_eq_nil_iff : structureProblems nodes roots = [] ↔
    Linked nodes roots := by
  have hentries : (∀ e ∈ nodes.entries, childProblems nodes e.1 e.2 = [] ∧
      parentProblems nodes e.1 e.2 = []) ↔
      (∀ p n, nodes.get? p = some n → ∀ c ∈ n.childIds,
        ∃ m, nodes.get? c = some m ∧ m.parent = some p) ∧
      (∀ c n p, nodes.get? c = some n → n.parent = some p →
        ∃ m, nodes.get? p = some m ∧ c ∈ m.childIds) := by
    constructor
    · intro h
      exact ⟨fun p n hn => childProblems_eq_nil_iff.mp (h _ (KeyMap.get?_eq_some_iff.mp hn)).1,
        fun c n p hn => parentProblems_eq_nil_iff.mp (h _ (KeyMap.get?_eq_some_iff.mp hn)).2 p⟩
    · rintro ⟨hc, hp⟩ ⟨id, n⟩ he
      have hn := KeyMap.get?_eq_some_iff.mpr he
      exact ⟨childProblems_eq_nil_iff.mpr (hc id n hn),
        parentProblems_eq_nil_iff.mpr fun p => hp id n p hn⟩
  simp only [structureProblems, List.append_eq_nil_iff, List.flatMap_eq_nil_iff,
    rootProblems_eq_nil_iff, duplicates_eq_nil_iff, orphans_eq_nil_iff, cycles_eq_nil_iff, hentries]
  constructor
  · rintro ⟨⟨⟨⟨hr, hc, hp⟩, hd⟩, ho⟩, hw⟩
    exact ⟨hr, hc, hp, hd, ho, hw⟩
  · rintro ⟨hr, hc, hp, hd, ho, hw⟩
    exact ⟨⟨⟨⟨hr, hc, hp⟩, hd⟩, ho⟩, hw⟩

/-- The references are the roots and the links of the entries. -/
theorem references_eq (nodes : Forest) (roots : List String) :
    references nodes roots = roots ++ linksOf nodes.entries := by
  rw [references, linksOf, KeyMap.values, List.flatMap_map]

end Rulebook.Forest

/-! ### The store of a grove -/

namespace Rulebook.Stored

open Forest Grove

variable {nodes : Forest} {roots : List String} {ts us : List Branch} {a q : Option String}
  {t : Branch}

/-- The store of a grove lists below an id the children of its subtree. -/
theorem childrenAt_eq (h : Stored ts nodes roots) (ht : ⟨q, t⟩ ∈ places none ts) :
    childrenAt nodes t.id = t.children.map Branch.id := by
  rw [childrenAt_of_get? (h.get?_eq_some ht), Branch.childIds_node]

/-- Every way down from a vertex of the grove ends. -/
theorem acc_childOf (h : Stored ts nodes roots) (hu : places a us ⊆ places none ts) :
    ∀ p ∈ ids us, Acc (ChildOf nodes) p := by
  induction us using induction generalizing a with
  | nil => exact fun p hp => absurd hp List.not_mem_nil
  | cons v cs us ihc iht =>
      rw [places_cons, List.cons_subset, List.append_subset] at hu
      obtain ⟨hv, hc, ht⟩ := hu
      intro p hp
      rw [ids_mk, List.mem_cons, List.mem_append] at hp
      rcases hp with rfl | hp | hp
      · refine Acc.intro _ fun c hchild => ?_
        have hmem : c ∈ cs.map Branch.id := h.childrenAt_eq hv ▸ hchild
        exact ihc hc c (mem_ids_of_mem_map hmem)
      · exact ihc hc p hp
      · exact iht ht p hp

/-- The references in the store of a grove are its ids, in some order. -/
theorem references_perm (h : Stored ts nodes roots) : (references nodes roots).Perm (ids ts) := by
  rw [references_eq, h.roots_eq]
  exact ((h.entries_perm.flatMap_right _).append_left _).trans (Grove.references_perm none ts).symm

/-- **The links of a grove's store agree.** -/
theorem linked (h : Stored ts nodes roots) : Linked nodes roots where
  root r hr := by
    rw [h.roots_eq] at hr
    obtain ⟨t, ht, rfl⟩ := List.mem_map.mp hr
    exact ⟨t.node none, h.get?_eq_some (mem_places_of_mem none ht), rfl⟩
  child p n hn c hc := by
    obtain ⟨q, t, ht, rfl, rfl⟩ := h.get?_eq_some_iff.mp hn
    rw [Branch.childIds_node] at hc
    obtain ⟨s, hs, rfl⟩ := List.mem_map.mp hc
    exact ⟨s.node (some t.id), h.get?_eq_some (mem_places_child ht hs), rfl⟩
  parent c n p hn hp := by
    obtain ⟨q, t, ht, rfl, rfl⟩ := h.get?_eq_some_iff.mp hn
    rw [Branch.parent_node] at hp
    subst hp
    rcases above_of_mem_places ht with ⟨hq, -⟩ | ⟨r, s, hs, hq, hc⟩
    · cases hq
    · cases hq
      refine ⟨s.node r, h.get?_eq_some hs, ?_⟩
      rw [Branch.childIds_node]
      exact List.mem_map_of_mem hc
  nodup := h.references_perm.nodup_iff.mpr h.nodup
  listed id hid := h.references_perm.mem_iff.mpr (h.keys_perm.mem_iff.mp hid)
  wellFounded := by
    refine ⟨fun p => ?_⟩
    by_cases hp : p ∈ nodes.keys
    · exact h.acc_childOf (List.Subset.refl (places none ts)) p (h.keys_perm.mem_iff.mp hp)
    · exact acc_of_not_mem_keys hp

/-- A store that stands for a grove has no problems. -/
theorem structureProblems_eq_nil (h : Stored ts nodes roots) :
    structureProblems nodes roots = [] := structureProblems_eq_nil_iff.mpr h.linked

end Rulebook.Stored
