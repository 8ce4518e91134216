import Mathlib.Data.List.Flatten
import Mathlib.Data.List.Perm.Subperm
import Mathlib.Logic.Relation
import Rulebook.Proofs.Node.Cycles
import Rulebook.Proofs.Node.Store

/-!
# Rulebook — Proofs — Node — Descendants

The ids below a node of any store, whatever is wrong with the store: children may be missing, be
listed in several places, or stand above.  Ids are collected from a list of pending ones.  What is
collected is below the node, and nothing that is below it gets lost, for every child of a collected
node is collected or still pending (`Collecting`); and every step takes a pending id, while the
references that can make further ids pending get fewer (`unseenCount`).

* `exists_step`: one step keeps the invariant, and leaves less to do.
* `subtree_exact`: the ids are those of the nodes that are reached by going down, each of them once.
-/

namespace Rulebook.Forest

open Grove (linksOf)

variable {nodes : Forest} {root id : String} {pending seen : List String} {fuel fuel' : Nat}

/-- The second id is reached from the first one by going down to children of nodes that exist. -/
def Reaches (nodes : Forest) : String → String → Prop :=
  Relation.ReflTransGen (Function.swap (ChildOf nodes))

theorem childrenAt_of_not_mem (h : id ∉ nodes.keys) : childrenAt nodes id = [] := by
  rw [childrenAt, KeyMap.get?_eq_none_iff.mpr h]

/-! ### The invariant -/

/-- An id is not lost: if it has a node it has been collected, or it is still pending. -/
def Noted (nodes : Forest) (pending seen : List String) (id : String) : Prop :=
  id ∈ nodes.keys → id ∈ pending ∨ id ∈ seen

/-- What holds while the ids below a root are collected. -/
structure Collecting (nodes : Forest) (root : String) (pending seen : List String) : Prop where
  nodup : seen.Nodup
  stored : seen ⊆ nodes.keys
  pending_reached : ∀ id ∈ pending, Reaches nodes root id
  seen_reached : ∀ id ∈ seen, Reaches nodes root id
  root_noted : Noted nodes pending seen root
  children_noted : ∀ id ∈ seen, ∀ c ∈ childrenAt nodes id, Noted nodes pending seen c

namespace Collecting

/-- The invariant holds when only the root is pending. -/
theorem start (nodes : Forest) (root : String) : Collecting nodes root [root] [] where
  nodup := .nil
  stored := List.nil_subset _
  pending_reached := List.forall_mem_singleton.mpr .refl
  seen_reached := List.forall_mem_nil _
  root_noted _ := .inl (List.mem_singleton_self root)
  children_noted := List.forall_mem_nil _

/-- An id is passed over that has no node, or has been collected. -/
theorem skip (h : Collecting nodes root (id :: pending) seen) (hs : id ∈ nodes.keys → id ∈ seen) :
    Collecting nodes root pending seen := by
  have noted {c : String} (hc : Noted nodes (id :: pending) seen c) :
      Noted nodes pending seen c := by
    intro hk
    rcases hc hk with hp | hs'
    · rcases List.mem_cons.mp hp with rfl | hp
      · exact .inr (hs hk)
      · exact .inl hp
    · exact .inr hs'
  exact ⟨h.nodup, h.stored, (List.forall_mem_cons.mp h.pending_reached).2, h.seen_reached,
    noted h.root_noted, fun a ha c hc => noted (h.children_noted a ha c hc)⟩

/-- An id is collected, and the node's children become pending. -/
theorem collect (h : Collecting nodes root (id :: pending) seen) (hk : id ∈ nodes.keys)
    (hs : id ∉ seen) :
    Collecting nodes root ((childrenAt nodes id).reverse ++ pending) (seen ++ [id]) := by
  obtain ⟨here, later⟩ := List.forall_mem_cons.mp h.pending_reached
  have noted {c : String} (hc : Noted nodes (id :: pending) seen c) :
      Noted nodes ((childrenAt nodes id).reverse ++ pending) (seen ++ [id]) c := by
    intro hk
    rcases hc hk with hp | hs'
    · rcases List.mem_cons.mp hp with rfl | hp
      · exact .inr (List.mem_append_right _ (List.mem_singleton_self _))
      · exact .inl (List.mem_append_right _ hp)
    · exact .inr (List.mem_append_left _ hs')
  exact {
    nodup := List.nodup_append.mpr ⟨h.nodup, List.nodup_singleton id, by
      rintro a ha b hb rfl
      exact hs (List.mem_singleton.mp hb ▸ ha)⟩
    stored := List.append_subset.mpr ⟨h.stored, List.cons_subset.mpr ⟨hk, List.nil_subset _⟩⟩
    pending_reached := List.forall_mem_append.mpr
      ⟨fun _ hc => here.tail (List.mem_reverse.mp hc), later⟩
    seen_reached := List.forall_mem_append.mpr ⟨h.seen_reached, List.forall_mem_singleton.mpr here⟩
    root_noted := noted h.root_noted
    children_noted := List.forall_mem_append.mpr
      ⟨fun a ha c hc => noted (h.children_noted a ha c hc),
        List.forall_mem_singleton.mpr fun _ hc _ =>
          .inl (List.mem_append_left _ (List.mem_reverse.mpr hc))⟩ }

/-- When nothing is pending any more, the ids are those of the nodes that are reached. -/
theorem mem_iff (h : Collecting nodes root [] seen) :
    id ∈ seen ↔ id ∈ nodes.keys ∧ Reaches nodes root id := by
  have settled {c : String} (hc : Noted nodes [] seen c) (hk : c ∈ nodes.keys) : c ∈ seen :=
    (hc hk).resolve_left List.not_mem_nil
  refine ⟨fun hs => ⟨h.stored hs, h.seen_reached id hs⟩, ?_⟩
  rintro ⟨hk, reached⟩
  induction reached with
  | refl => exact settled h.root_noted hk
  | @tail parent child _ listed ih =>
      -- only a node that exists has children
      have exists_parent : parent ∈ nodes.keys := by
        by_contra missing
        have listed : child ∈ childrenAt nodes parent := listed
        rw [childrenAt_of_not_mem missing] at listed
        exact List.not_mem_nil listed
      exact settled (h.children_noted parent (ih exists_parent) child listed) hk

end Collecting

/-! ### One step -/

/-- The number of references in nodes that have not been collected. -/
def unseenCount (nodes : Forest) (seen : List String) : Nat :=
  (linksOf (nodes.entries.filter fun e => e.1 ∉ seen)).length

/-- Before anything is collected, all references are counted. -/
theorem unseenCount_nil (nodes : Forest) : unseenCount nodes [] = nodes.referenceCount := by
  simp [unseenCount, referenceCount_eq]

/-- The references that become pending are no longer counted. -/
theorem unseenCount_concat {n : Node} (h : nodes.get? id = some n) (hs : id ∉ seen) :
    n.childIds.length + unseenCount nodes (seen ++ [id]) ≤ unseenCount nodes seen := by
  have nodup : nodes.entries.Nodup := List.Nodup.of_map _ nodes.nodup_keys
  have here : (id, n) ∉ nodes.entries.filter fun e => e.1 ∉ seen ++ [id] := by simp
  have fewer : (id, n) :: (nodes.entries.filter fun e => e.1 ∉ seen ++ [id]) ⊆
      nodes.entries.filter fun e => e.1 ∉ seen := by
    refine List.cons_subset.mpr ⟨?_, fun e he => ?_⟩
    · exact List.mem_filter.mpr ⟨KeyMap.get?_eq_some_iff.mp h, decide_eq_true hs⟩
    · obtain ⟨he, outside⟩ := List.mem_filter.mp he
      have outside : e.1 ∉ seen ++ [id] := of_decide_eq_true outside
      exact List.mem_filter.mpr
        ⟨he, decide_eq_true fun hs => outside (List.mem_append_left _ hs)⟩
  obtain ⟨part, perm, sublist⟩ :=
    List.subperm_of_subset (List.nodup_cons.mpr ⟨here, nodup.filter _⟩) fewer
  calc n.childIds.length + unseenCount nodes (seen ++ [id])
      = (linksOf ((id, n) :: nodes.entries.filter fun e => e.1 ∉ seen ++ [id])).length := by
        simp [unseenCount, linksOf]
    _ = (linksOf part).length := ((perm.flatMap_right _).length_eq).symm
    _ ≤ unseenCount nodes seen := (sublist.flatMap _).length_le

/-- **One step** takes the first pending id.  It goes on in the same way whatever fuel is left,
keeps the invariant, and leaves less to do. -/
theorem exists_step (nodes : Forest) (id : String) (pending seen : List String) :
    ∃ pending' seen',
      (∀ fuel, reach nodes (fuel + 1) (id :: pending) seen = reach nodes fuel pending' seen') ∧
      pending'.length + unseenCount nodes seen' <
        (id :: pending).length + unseenCount nodes seen ∧
      ∀ root, Collecting nodes root (id :: pending) seen →
        Collecting nodes root pending' seen' := by
  have fewer : pending.length + unseenCount nodes seen <
      (id :: pending).length + unseenCount nodes seen := by
    rw [List.length_cons]
    omega
  by_cases hs : id ∈ seen
  · have known : seen.contains id = true := List.contains_iff_mem.mpr hs
    exact ⟨pending, seen, fun fuel => by rw [reach, if_pos known], fewer,
      fun root h => h.skip fun _ => hs⟩
  · have new : ¬ seen.contains id = true := mt List.contains_iff_mem.mp hs
    cases hn : nodes.get? id with
    | none =>
        have missing := KeyMap.get?_eq_none_iff.mp hn
        exact ⟨pending, seen, fun fuel => by rw [reach, if_neg new, hn], fewer,
          fun root h => h.skip fun hk => absurd hk missing⟩
    | some n =>
        have stored : id ∈ nodes.keys := by
          by_contra missing
          rw [KeyMap.get?_eq_none_iff.mpr missing] at hn
          cases hn
        refine ⟨n.childIds.reverse ++ pending, seen ++ [id],
          fun fuel => by rw [reach, if_neg new, hn], ?_,
          fun root h => childrenAt_of_get? hn ▸ h.collect stored hs⟩
        have := unseenCount_concat hn hs
        rw [List.length_append, List.length_reverse, List.length_cons]
        omega

/-! ### The whole run -/

/-- With enough fuel nothing is left pending. -/
theorem collecting_reach (h : Collecting nodes root pending seen)
    (enough : pending.length + unseenCount nodes seen < fuel) :
    Collecting nodes root [] (reach nodes fuel pending seen) := by
  induction fuel generalizing pending seen with
  | zero => exact absurd enough (Nat.not_lt_zero _)
  | succ fuel ih =>
      cases pending with
      | nil => exact h
      | cons id pending =>
          obtain ⟨pending', seen', step, less, keeps⟩ := exists_step nodes id pending seen
          rw [step]
          exact ih (keeps root h) (by omega)

/-- More fuel than enough changes nothing. -/
theorem reach_congr (enough : pending.length + unseenCount nodes seen < fuel)
    (enough' : pending.length + unseenCount nodes seen < fuel') :
    reach nodes fuel pending seen = reach nodes fuel' pending seen := by
  induction fuel generalizing fuel' pending seen with
  | zero => exact absurd enough (Nat.not_lt_zero _)
  | succ fuel ih =>
      obtain ⟨fuel', rfl⟩ := Nat.exists_eq_add_one_of_ne_zero (Nat.ne_zero_of_lt enough')
      cases pending with
      | nil => rfl
      | cons id pending =>
          obtain ⟨pending', seen', step, less, -⟩ := exists_step nodes id pending seen
          rw [step, step]
          exact ih (by omega) (by omega)

/-- **The ids below a node are collected exactly**, in every store: the existing ids that are
reached by going down, each of them once.  Nothing is left pending, so that more fuel changes
nothing. -/
theorem subtree_exact (nodes : Forest) (root : String) :
    (nodes.subtree root).Nodup ∧
      (∀ id, id ∈ nodes.subtree root ↔ id ∈ nodes.keys ∧ Reaches nodes root id) ∧
      ∀ fuel, nodes.referenceCount + 2 ≤ fuel →
        reach nodes fuel [root] [] = nodes.subtree root := by
  have enough : [root].length + unseenCount nodes [] < nodes.referenceCount + 2 := by
    rw [unseenCount_nil, List.length_singleton]
    omega
  have collected := collecting_reach (.start nodes root) enough
  exact ⟨collected.nodup, fun _ => collected.mem_iff,
    fun fuel more => reach_congr (Nat.lt_of_lt_of_le enough more) enough⟩

/-- A cycle, a node that two others share, a child that is missing, and a node out of reach. -/
example :
    let node (id : String) (children : List String) : String × Node :=
      (id, ⟨id, none, none, children.map .ref, none, .group .and⟩)
    let nodes := KeyMap.ofList [node "a" ["b", "c", "x"], node "b" ["d", "a"], node "c" ["d", "d"],
      node "d" ["c"], node "e" ["a"]]
    subtree nodes "a" = ["a", "c", "d", "b"] ∧ subtree nodes "x" = [] := by
  decide +kernel

end Rulebook.Forest
