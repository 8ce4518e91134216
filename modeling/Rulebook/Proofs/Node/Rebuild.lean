import Mathlib.Data.List.Forall2
import Rulebook.Proofs.Node.Build
import Rulebook.Proofs.Node.Codec

/-!
# Rulebook — Proofs — Node — Rebuild

Trees that are taken apart into a store are put together again from it as they were, their parents
apart, whatever else is in the store (`Forest.build_addTrees`).  What is put together from a store
has no values but those of the store's nodes (`Forest.Finite.build`), and so does the rule that it
is (`Node.Finite.toRule`).
-/

namespace Rulebook

/-- Several outcomes together are that each of them is one. -/
theorem mapM_eq_ok_iff {ε α β : Type} {f : α → Except ε β} {as : List α} {bs : List β} :
    as.mapM f = .ok bs ↔ List.Forall₂ (fun a b => f a = .ok b) as bs := by
  induction as generalizing bs with
  | nil => exact pure_eq_ok_iff.trans (by simp [eq_comm])
  | cons a as ih =>
      simp only [List.mapM_cons, bind_eq_ok_iff, pure_eq_ok_iff, ih, List.forall₂_cons_left_iff]
      constructor
      · rintro ⟨b, hb, bs, hbs, rfl⟩
        exact ⟨b, bs, hb, hbs, rfl⟩
      · rintro ⟨b, bs, hb, hbs, rfl⟩
        exact ⟨b, hb, bs, hbs, rfl⟩

theorem exists_of_mem_right {α β : Type} {R : α → β → Prop} {as : List α} {bs : List β}
    (h : List.Forall₂ R as bs) {b : β} (hb : b ∈ bs) : ∃ a ∈ as, R a b := by
  induction h with
  | nil => cases hb
  | cons hr _ ih =>
      rcases List.mem_cons.mp hb with rfl | hb
      · exact ⟨_, List.mem_cons_self, hr⟩
      · obtain ⟨a, ha, har⟩ := ih hb
        exact ⟨a, List.mem_cons_of_mem _ ha, har⟩

namespace Node

mutual

/-- The tree with every node naming its container as its parent, the top below a given one. -/
def hung (above : Option String) : Node → Node
  | ⟨id, label, note, children, _, config⟩ => ⟨id, label, note, hungAll id children, above, config⟩

/-- Children that name the node with an id as their parent. -/
def hungAll (id : String) : List Entry → List Entry
  | [] => []
  | .ref child :: es => .ref child :: hungAll id es
  | .node n :: es => .node (hung (some id) n) :: hungAll id es

end

mutual

/-- The branch of a tree grows to the tree, its parents apart. -/
theorem grown_branch (above : Option String) : (n : Node) → n.Embedded →
    n.branch.grown above = n.hung above
  | ⟨id, _, _, children, _, _⟩, he => by
      rw [branch, Branch.grown, grownAll_branches id children he, hung]

/-- Trees grown from embedded children are those children, each naming its container. -/
theorem grownAll_branches (id : String) : (es : List Entry) → EmbeddedAll es →
    Branch.grownAll id (branches es) = hungAll id es
  | [], _ => rfl
  | .ref _ :: _, he => he.elim
  | .node n :: es, he => by
      rw [branches, Branch.grownAll, grown_branch (some id) n he.1, grownAll_branches id es he.2,
        hungAll]

end

mutual

/-- Nothing changes in a tree in which every node names its container. -/
theorem hung_eq_self (above : Option String) : (n : Node) → n.Hangs above → n.hung above = n
  | ⟨id, _, _, children, _, _⟩, hh => by rw [hung, hungAll_eq_self id children hh.2, hh.1]

/-- Children that name their container already are kept. -/
theorem hungAll_eq_self (id : String) : (es : List Entry) → HangsAll id es → hungAll id es = es
  | [], _ => rfl
  | .ref _ :: es, hh => by rw [hungAll, hungAll_eq_self id es hh]
  | .node n :: es, hh => by
      rw [hungAll, hung_eq_self (some id) n hh.1, hungAll_eq_self id es hh.2]

end

/-- The trees of a list of children are those of the nodes embedded in it. -/
theorem mem_branches {t : Branch} {es : List Entry} (h : t ∈ branches es) :
    ∃ m, .node m ∈ es ∧ m.branch = t := by
  induction es with
  | nil => cases h
  | cons e es ih =>
      cases e with
      | ref id =>
          obtain ⟨m, hm, rfl⟩ := ih h
          exact ⟨m, List.mem_cons_of_mem _ hm, rfl⟩
      | node n =>
          rcases List.mem_cons.mp h with rfl | h
          · exact ⟨n, List.mem_cons_self, rfl⟩
          · obtain ⟨m, hm, rfl⟩ := ih h
            exact ⟨m, List.mem_cons_of_mem _ hm, rfl⟩

theorem mem_branches_of_mem {n : Node} {es : List Entry} (h : .node n ∈ es) :
    n.branch ∈ branches es := by
  induction es with
  | nil => cases h
  | cons e es ih =>
      cases e with
      | ref id => exact ih (by simpa using h)
      | node m =>
          rcases List.mem_cons.mp h with he | h
          · exact Entry.node.inj he ▸ List.mem_cons_self
          · exact List.mem_cons_of_mem _ (ih h)

/-- No vertex is on a level exactly if the tree has no more levels. -/
theorem onLevel_branch_eq_nil_iff {n : Node} {level : Nat} :
    n.branch.onLevel level = [] ↔ n.depth ≤ level := by
  induction level generalizing n with
  | zero =>
      obtain ⟨id, label, note, children, parent, config⟩ := n
      rw [depth]
      exact ⟨nofun, fun h => absurd h (by omega)⟩
  | succ level ih =>
      have children : n.branch.children = branches n.children := by
        cases n
        rfl
      rw [Branch.onLevel, List.flatMap_eq_nil_iff, children]
      constructor
      · exact fun h => depth_le_of_forall fun m hm => ih.mp (h _ (mem_branches_of_mem hm))
      · intro h t ht
        obtain ⟨m, hm, rfl⟩ := mem_branches ht
        exact ih.mpr (Nat.le_of_lt_succ (Nat.lt_of_lt_of_le (depth_lt_of_mem hm) h))

end Node

namespace Forest

open Grove

/-- **A tree that is added to a store is put together again**, with every node naming its
container, unless a vertex is on a level too many. -/
theorem build_addTrees {trees : List Node} {nodes : Forest} (embedded : ∀ n ∈ trees, n.Embedded)
    (nodup : (ids (trees.map Node.branch) ++ nodes.keys).Nodup) {n : Node} (hn : n ∈ trees) :
    (addTrees trees nodes).build n.id =
      builtUnless (n.branch.onLevel nestingLimit) (n.hung none) := by
  have mem : n.branch ∈ trees.map Node.branch := List.mem_map_of_mem hn
  have place := mem_places_of_mem none mem
  have stored : entries none [n.branch] ⊆ (addTrees trees nodes).entries := fun e he =>
    (addTrees_perm embedded nodup).symm.subset (List.mem_append_left _ (entries_subset place he))
  have distinct : (ids [n.branch]).Nodup :=
    (nodup.sublist (List.sublist_append_left _ _)).sublist (ids_sublist place)
  rw [← Node.grown_branch none n (embedded n hn), ← build_eq stored distinct, Node.id_branch]

/-- A node that was there is still there. -/
theorem get?_addTrees {trees : List Node} {nodes : Forest} (embedded : ∀ n ∈ trees, n.Embedded)
    (nodup : (ids (trees.map Node.branch) ++ nodes.keys).Nodup) {key : String} {n : Node}
    (h : nodes.get? key = some n) : (addTrees trees nodes).get? key = some n :=
  KeyMap.get?_eq_some_iff.mpr ((addTrees_perm embedded nodup).symm.subset
    (List.mem_append_right _ (KeyMap.get?_eq_some_iff.mp h)))

variable {nodes : Forest}

/-- Every number in the store is finite. -/
def Finite (nodes : Forest) : Prop := ∀ n ∈ nodes.values, n.Finite

instance (nodes : Forest) : Decidable nodes.Finite :=
  inferInstanceAs (Decidable (∀ n ∈ nodes.values, n.Finite))

/-- A node of a finite store has finite numbers. -/
theorem Finite.get? (h : nodes.Finite) {key : String} {n : Node} (hn : nodes.get? key = some n) :
    n.Finite :=
  h n (List.mem_map.mpr ⟨(key, n), KeyMap.get?_eq_some_iff.mp hn, rfl⟩)

/-- What a child of a finite node stands for is finite. -/
theorem Finite.resolve (h : nodes.Finite) {n m : Node} {e : Entry} (hn : n.Finite)
    (he : e ∈ n.children) (hm : Forest.resolve nodes n.id e = .ok m) : m.Finite := by
  cases e with
  | node k =>
      cases hm
      exact (Node.finite_iff.mp hn).2 m he
  | ref id =>
      rw [Forest.resolve] at hm
      split at hm
      · cases hm
        exact h.get? ‹_›
      · cases hm

/-- A child is put together exactly if what it stands for is, and then with its parent's id. -/
theorem grow_eq_ok_iff {levels : Nat} {path : List String} {id : String} {c d : Entry} :
    grow nodes levels path id c = .ok d ↔
      ∃ m tree, resolve nodes id c = .ok m ∧ materialize nodes levels path m = .ok tree ∧
        .node { tree with parent := some id } = d := by
  simp only [grow, bind_eq_ok_iff, pure_eq_ok_iff]
  constructor
  · rintro ⟨m, hm, tree, ht, hd⟩
    exact ⟨m, tree, hm, ht, hd⟩
  · rintro ⟨m, tree, hm, ht, hd⟩
    exact ⟨m, hm, tree, ht, hd⟩

/-- A tree that is put together is its node with what has become of the children. -/
theorem exists_of_materialize {levels : Nat} {path : List String} {n tree : Node}
    (h : materialize nodes levels path n = .ok tree) :
    ∃ below children, levels = below + 1 ∧
      List.Forall₂ (fun c d => grow nodes below (path ++ [n.id]) n.id c = .ok d)
        n.children children ∧
      tree = { n with children } := by
  by_cases hmem : n.id ∈ path
  · rw [materialize_of_mem hmem] at h
    cases h
  cases levels with
  | zero =>
      rw [materialize_zero hmem] at h
      cases h
  | succ levels =>
      rw [materialize_succ hmem] at h
      cases hc : n.children.mapM (grow nodes levels (path ++ [n.id]) n.id) with
      | error e =>
          rw [hc] at h
          cases h
      | ok children =>
          rw [hc] at h
          cases h
          exact ⟨levels, children, rfl, mapM_eq_ok_iff.mp hc, rfl⟩

/-- What is put together from a finite store is finite. -/
theorem Finite.materialize (h : nodes.Finite) {levels : Nat} {path : List String} {n tree : Node}
    (hn : n.Finite) (ht : Forest.materialize nodes levels path n = .ok tree) : tree.Finite := by
  induction levels generalizing path n tree with
  | zero =>
      obtain ⟨below, children, hl, -⟩ := exists_of_materialize ht
      cases hl
  | succ levels ih =>
      obtain ⟨_, children, ⟨⟩, grown, rfl⟩ := exists_of_materialize ht
      refine Node.finite_iff.mpr ⟨(Node.finite_iff.mp hn).1, fun m hm => ?_⟩
      obtain ⟨e, he, hm⟩ := exists_of_mem_right grown hm
      obtain ⟨child, t, hr, ht, hm⟩ := grow_eq_ok_iff.mp hm
      obtain rfl := Entry.node.inj hm
      -- another parent changes nothing about the values
      obtain ⟨own, below⟩ := Node.finite_iff.mp (ih (h.resolve hn he hr) ht)
      exact Node.finite_iff.mpr ⟨own, below⟩

/-- **A tree that is put together has no values but those of the store.** -/
theorem Finite.build (h : nodes.Finite) {root : String} {tree : Node}
    (ht : nodes.build root = .ok tree) : tree.Finite := by
  rw [Forest.build] at ht
  split at ht
  · cases ht
  · exact h.materialize (h.get? ‹_›) ht

end Forest

/-- What a rule's configuration keeps are the rule's values, but for the name of a field. -/
theorem Head.isRenderable_of_config {h : Head} (hc : h.check = .ok ())
    (hf : ∀ v ∈ h.config.literals, v.isRenderable = true) :
    ∀ v ∈ h.literals, v.isRenderable = true := by
  intro v hv
  cases h with
  | junction j => cases hv
  | scope s =>
      cases s with
      | withDefault field value => exact hf v hv
      | _ => cases hv
  | atom a =>
      cases a with
      | condition c =>
          obtain ⟨field, comparison, value, kind⟩ := c
          obtain rfl := List.mem_singleton.mp hv
          cases kind with
          | literal => exact hf _ List.mem_cons_self
          | fieldReference =>
              obtain ⟨s, e, -⟩ := (check_condition_iff.mp hc).1 rfl
              cases e
              rfl
      | call name args => exact hf v hv
      | template id params => exact hf v hv
      | _ => cases hv

/-- **The rule of a tree has no values but the tree's.** -/
theorem Node.Finite.toRule {n : Node} (h : n.Finite) {r : Rule} (hr : n.toRule = .ok r) :
    r.Finite := by
  obtain ⟨mirrors, drawable⟩ := toRule_eq_ok_iff.mp hr
  have check := Rule.check_head_of_checkNodes (Rule.checkNodes_of_checkDrawable drawable)
  intro q hq
  refine Head.isRenderable_of_config (check q hq) (h q.head.config ?_)
  rw [mirrors.configs_eq]
  exact List.mem_map_of_mem hq

end Rulebook
