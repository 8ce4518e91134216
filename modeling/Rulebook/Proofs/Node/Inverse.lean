import Rulebook.Proofs.Node.Rebuild

/-!
# Rulebook — Proofs — Node — Inverse

Taking trees apart and putting them together again.  All that is lost of a tree are the parents that
its nodes named before, and a tree with more levels than may be built is not put together on account
of the first node, in pre-order, on the first level too many.

* `filter_outline`: the nodes on a level, among all of them in pre-order.
* `build_flatten`: the two ways, one after the other.
-/

namespace Rulebook

open Grove

namespace Node

mutual

/-- The ids of a tree in pre-order, each with its level, from the level of the top on. -/
def outline (level : Nat) : Node → List (Nat × String)
  | ⟨id, _, _, children, _, _⟩ => (level, id) :: outlineAll (level + 1) children

/-- The ids of several embedded trees with their levels. -/
def outlineAll (level : Nat) : List Entry → List (Nat × String)
  | [] => []
  | .ref _ :: es => outlineAll level es
  | .node n :: es => outline level n ++ outlineAll level es

end

mutual

/-- No level in a tree's outline is above that of the top. -/
theorem le_of_mem_outline (level : Nat) : (n : Node) → ∀ p ∈ n.outline level, level ≤ p.1
  | ⟨_, _, _, children, _, _⟩ => by
      rw [outline, List.forall_mem_cons]
      exact ⟨Nat.le_refl level, fun p hp =>
        Nat.le_of_succ_le (le_of_mem_outlineAll (level + 1) children p hp)⟩

theorem le_of_mem_outlineAll (level : Nat) : (es : List Entry) →
    ∀ p ∈ outlineAll level es, level ≤ p.1
  | [] => fun _ hp => absurd hp List.not_mem_nil
  | .ref _ :: es => le_of_mem_outlineAll level es
  | .node n :: es => by
      rw [outlineAll, List.forall_mem_append]
      exact ⟨le_of_mem_outline level n, le_of_mem_outlineAll level es⟩

end

mutual

/-- **The ids on a level of a tree**, among all of them in pre-order. -/
theorem filter_outline (level k : Nat) : (n : Node) →
    (n.outline level).filter (fun p => p.1 = level + k) =
      (n.branch.onLevel k).map fun id => (level + k, id)
  | ⟨id, _, _, children, _, _⟩ => by
      rw [outline, branch]
      cases k with
      | zero =>
          -- everything below is on a level of its own
          have below : (outlineAll (level + 1) children).filter
              (fun p => decide (p.1 = level + 0)) = [] :=
            List.filter_eq_nil_iff.mpr fun p hp he => by
              have := le_of_mem_outlineAll (level + 1) children p hp
              have := of_decide_eq_true he
              omega
          rw [List.filter_cons, below]
          simp [Branch.onLevel]
      | succ k =>
          have top : decide (level = level + 1 + k) = false := decide_eq_false (by omega)
          rw [← Nat.add_assoc, Nat.add_right_comm, List.filter_cons, top,
            filter_outlineAll (level + 1) k children]
          rfl

/-- The entries of an outline on one level are the ids on that level of the trees. -/
theorem filter_outlineAll (level k : Nat) : (es : List Entry) →
    (outlineAll level es).filter (fun p => p.1 = level + k) =
      ((branches es).flatMap (Branch.onLevel k)).map fun id => (level + k, id)
  | [] => rfl
  | .ref _ :: es => filter_outlineAll level k es
  | .node n :: es => by
      rw [outlineAll, List.filter_append, filter_outline level k n, filter_outlineAll level k es,
        branches, List.flatMap_cons, List.map_append]

end

mutual

/-- The vertices of a tree are its nodes. -/
theorem length_ids_branch : (n : Node) → (ids [n.branch]).length = n.count
  | ⟨_, _, _, children, _, _⟩ => by
      rw [branch, ids_singleton, List.length_cons, length_ids_branches children, count,
        Nat.add_comm]

/-- Embedded trees have as many ids as nodes. -/
theorem length_ids_branches : (es : List Entry) → (ids (branches es)).length = countEntries es
  | [] => rfl
  | .ref _ :: es => length_ids_branches es
  | .node n :: es => by
      rw [branches, ids_cons_eq, List.length_append, length_ids_branch n,
        length_ids_branches es, countEntries]

end

theorem length_ids_map_branch (trees : List Node) :
    (ids (trees.map branch)).length = (trees.map count).sum := by
  induction trees with
  | nil => rfl
  | cons n trees ih =>
      rw [List.map_cons, ids_cons_eq, List.length_append, length_ids_branch, ih, List.map_cons,
        List.sum_cons]

end Node

namespace Forest

/-- **Taking trees apart and putting them together are inverse.**  Embedded trees with distinct ids
give a store with as many entries as there are nodes, and the ids of the roots in order.  A tree
with at most as many levels as may be built comes back as it was, except that its nodes now name
their containers as their parents; of a tree with more levels the first node in pre-order is named
that is on the first level too many. -/
theorem build_flatten (trees : List Node) (embedded : ∀ n ∈ trees, n.Embedded)
    (nodup : (ids (trees.map Node.branch)).Nodup) :
    (flatten trees).1.size = (trees.map Node.count).sum ∧
    (flatten trees).2 = trees.map Node.id ∧
    ∀ n ∈ trees,
      (n.depth ≤ nestingLimit → (flatten trees).1.build n.id = .ok (n.hung none)) ∧
      (nestingLimit < n.depth → ∃ id,
        (n.outline 1).find? (fun p => p.1 = nestingLimit + 1) = some (nestingLimit + 1, id) ∧
          (flatten trees).1.build n.id = .error (.tooDeep id)) := by
  have stored := stored_flatten embedded nodup
  refine ⟨?_, rfl, fun n hn => ?_⟩
  · rw [← stored.length_ids, Node.length_ids_map_branch]
  have built : (flatten trees).1.build n.id =
      builtUnless (n.branch.onLevel nestingLimit) (n.hung none) := by
    rw [← Node.grown_branch none n (embedded n hn),
      ← stored.build_eq (List.mem_map_of_mem hn), Node.id_branch]
  rw [built]
  refine ⟨fun shallow => ?_, fun deep => ?_⟩
  · rw [Node.onLevel_branch_eq_nil_iff.mpr shallow]
    rfl
  · cases hl : n.branch.onLevel nestingLimit with
    | nil => exact absurd (Node.onLevel_branch_eq_nil_iff.mp hl) (Nat.not_le_of_lt deep)
    | cons id ids =>
        refine ⟨id, ?_, rfl⟩
        have found := Node.filter_outline 1 nestingLimit n
        rw [hl, Nat.add_comm 1] at found
        rw [← List.head?_filter, found]
        rfl

/-- A group with so many groups below it, each embedded in the one before. -/
def chainNode : (below : Nat) → Node
  | 0 => ⟨String.ofList ['A'], none, none, [], none, .group .and⟩
  | below + 1 =>
    ⟨String.ofList [Char.ofNat ('B'.toNat + below)], none, none, [.node (chainNode below)], none,
      .group .and⟩

theorem embedded_chainNode : (below : Nat) → (chainNode below).Embedded
  | 0 => trivial
  | below + 1 => ⟨embedded_chainNode below, trivial⟩

/-- A negated call that names another parent. -/
def pairNode : Node :=
  ⟨"pair", none, none, [.node ⟨"call", none, none, [], some "elsewhere", .call (some "f") []⟩],
    none, .group .not⟩

/-- A pair comes back, and of a chain with a level too many the last group is named. -/
theorem build_flatten_chain :
    (flatten [pairNode, chainNode 32]).1.size = 35 ∧
    (flatten [pairNode, chainNode 32]).1.build "pair" = .ok (pairNode.hung none) ∧
    (flatten [pairNode, chainNode 32]).1.build "a" = .error (.tooDeep "A") := by
  obtain ⟨size, -, built⟩ := build_flatten [pairNode, chainNode 32]
    (List.forall_mem_cons.mpr ⟨⟨trivial, trivial⟩,
      List.forall_mem_singleton.mpr (embedded_chainNode 32)⟩) (by decide +kernel)
  obtain ⟨id, found, deep⟩ := (built _ (List.mem_cons_of_mem _ List.mem_cons_self)).2
    (by decide +kernel)
  have first : ((chainNode 32).outline 1).find? (fun p => p.1 = nestingLimit + 1) =
      some (nestingLimit + 1, "A") := by decide +kernel
  obtain rfl : id = "A" := congrArg Prod.snd (Option.some.inj (found.symm.trans first))
  exact ⟨size, (built _ List.mem_cons_self).1 (by decide), deep⟩

end Forest

end Rulebook
