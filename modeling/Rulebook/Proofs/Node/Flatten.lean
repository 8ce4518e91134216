import Rulebook.Proofs.Node.Store

/-!
# Rulebook — Proofs — Node — Flatten

Embedded trees are groves of which every vertex may name a parent, and taking them apart gives the
entries of the grove.

* `addTrees_perm`: trees with new ids add their entries to a store.
* `stored_flatten`: the store of trees with distinct ids stands for them.
-/

namespace Rulebook

namespace Node

mutual

/-- Every child is embedded, on every level. -/
def Embedded : Node → Prop
  | ⟨_, _, _, children, _, _⟩ => EmbeddedAll children

/-- Every entry is an embedded tree. -/
def EmbeddedAll : List Entry → Prop
  | [] => True
  | .ref _ :: _ => False
  | .node n :: es => Embedded n ∧ EmbeddedAll es

end

mutual

/-- The tree that is embedded in a node. -/
def branch : Node → Branch
  | ⟨id, label, note, children, _, config⟩ => ⟨⟨id, label, note, config⟩, branches children⟩

/-- The trees that are embedded in entries. -/
def branches : List Entry → List Branch
  | [] => []
  | .ref _ :: es => branches es
  | .node n :: es => branch n :: branches es

end

@[simp] theorem id_branch (n : Node) : n.branch.id = n.id := by
  cases n
  rfl

theorem map_id_branch (ns : List Node) : (ns.map branch).map Branch.id = ns.map Node.id := by
  rw [List.map_map]
  exact List.map_congr_left fun n _ => id_branch n

/-- The trees of embedded children have the children's ids. -/
theorem map_id_branches {es : List Entry} (h : EmbeddedAll es) :
    (branches es).map Branch.id = es.map Entry.id := by
  induction es with
  | nil => rfl
  | cons e es ih =>
      cases e with
      | ref id => exact h.elim
      | node n => rw [branches, List.map_cons, List.map_cons, ih h.2, id_branch]; rfl

end Node

namespace Branch

mutual

/-- The node in which a tree is embedded. -/
def embed : Branch → Node
  | ⟨v, cs⟩ => ⟨v.id, v.label, v.note, embedAll cs, none, v.config⟩

/-- The entries in which trees are embedded. -/
def embedAll : List Branch → List Entry
  | [] => []
  | t :: ts => .node (embed t) :: embedAll ts

end

mutual

/-- A tree of a grove is embedded as a whole. -/
theorem embedded_embed : (t : Branch) → (embed t).Embedded
  | ⟨_, cs⟩ => embedded_embedAll cs

theorem embedded_embedAll : (ts : List Branch) → Node.EmbeddedAll (embedAll ts)
  | [] => trivial
  | t :: ts => ⟨embedded_embed t, embedded_embedAll ts⟩

end

mutual

/-- A tree that has been embedded is read as the tree. -/
theorem branch_embed : (t : Branch) → (embed t).branch = t
  | ⟨v, cs⟩ => congrArg (Branch.mk v) (branches_embedAll cs)

theorem branches_embedAll : (ts : List Branch) → Node.branches (embedAll ts) = ts
  | [] => rfl
  | t :: ts => by rw [embedAll, Node.branches, branch_embed t, branches_embedAll ts]

end

end Branch

namespace Forest

open Grove

/-- Ids of two parts that are new to the keys, the first part taken before the second. -/
theorem nodup_split {l r ks : List String} (h : (l ++ r ++ ks).Nodup) :
    (l ++ ks).Nodup ∧ (r ++ (l ++ ks)).Nodup := by
  refine ⟨h.sublist ((List.sublist_append_left l r).append_right ks), ?_⟩
  rw [← List.append_assoc]
  exact (List.perm_append_comm.append_right ks).nodup_iff.mp h

section

variable {a : Option String} {t : Branch} {ts : List Branch} {nodes added result : Forest}

/-- The keys of a store that a tree has been added to. -/
theorem keys_of_perm (h : added.entries.Perm (entries a ts ++ nodes.entries)) :
    added.keys.Perm (ids ts ++ nodes.keys) := by
  have := KeyMap.keys_perm h
  rwa [List.map_append, keys_entries] at this

/-- A tree is added, and then the trees behind it. -/
theorem perm_of_perm_cons (h : added.entries.Perm (entries a [t] ++ nodes.entries))
    (hr : result.entries.Perm (entries a ts ++ added.entries)) :
    result.entries.Perm (entries a (t :: ts) ++ nodes.entries) := by
  rw [entries_cons_eq, List.append_assoc]
  refine hr.trans ((h.append_left _).trans ?_)
  rw [← List.append_assoc, ← List.append_assoc]
  exact List.perm_append_comm.append_right _

end

mutual

/-- A tree with new ids adds its entries. -/
theorem addTree_perm (a : Option String) : (n : Node) → (nodes : Forest) → n.Embedded →
    (ids [n.branch] ++ nodes.keys).Nodup →
    (addTree a n nodes).entries.Perm (entries a [n.branch] ++ nodes.entries)
  | ⟨key, label, note, children, parent, config⟩, nodes, h, nodup => by
      -- the children go in first, and then the node's own id is still new
      have hids : ids [Node.branch ⟨key, label, note, children, parent, config⟩] ++ nodes.keys =
          key :: (ids (Node.branches children) ++ nodes.keys) := by
        rw [Node.branch, ids_mk, ids_nil, List.append_nil, List.cons_append]
      rw [hids, List.nodup_cons] at nodup
      have hc := addEntries_perm key children nodes h nodup.2
      have hkey : key ∉
          (entries (some key) (Node.branches children) ++ nodes.entries).map Prod.fst := by
        rw [List.map_append, keys_entries]
        exact nodup.1
      have hnode : (⟨key, label, note, children.map fun e => .ref e.id, a, config⟩ : Node) =
          Branch.node a (Node.branch ⟨key, label, note, children, parent, config⟩) := by
        have := congrArg (List.map Entry.ref) (Node.map_id_branches h)
        simp only [List.map_map] at this
        simp only [Branch.node, Node.branch]
        exact congrArg (fun l => Node.mk key label note l a config) this.symm
      rw [addTree, hnode, Node.branch, entries_cons, entries_nil, List.append_nil]
      exact KeyMap.insert_perm hc hkey _

/-- Children with new ids add their entries. -/
theorem addEntries_perm (p : String) : (es : List Entry) → (nodes : Forest) →
    Node.EmbeddedAll es → (ids (Node.branches es) ++ nodes.keys).Nodup →
    (addEntries p es nodes).entries.Perm (entries (some p) (Node.branches es) ++ nodes.entries)
  | [], _, _, _ => .refl _
  | .ref _ :: _, _, h, _ => h.elim
  | .node n :: es, nodes, h, nodup => by
      rw [Node.branches, ids_cons_eq] at nodup
      obtain ⟨hfst, hsnd⟩ := nodup_split nodup
      have hn := addTree_perm (some p) n nodes h.1 hfst
      exact perm_of_perm_cons hn (addEntries_perm p es _ h.2
        (((keys_of_perm hn).append_left _).nodup_iff.mpr hsnd))

end

/-- **Trees with new ids add their entries to a store.** -/
theorem addTrees_perm {trees : List Node} {nodes : Forest} (h : ∀ n ∈ trees, n.Embedded)
    (nodup : (ids (trees.map Node.branch) ++ nodes.keys).Nodup) :
    (addTrees trees nodes).entries.Perm
      (entries none (trees.map Node.branch) ++ nodes.entries) := by
  induction trees generalizing nodes with
  | nil => exact .refl _
  | cons n trees ih =>
      rw [List.map_cons, ids_cons_eq] at nodup
      obtain ⟨hfst, hsnd⟩ := nodup_split nodup
      have hn := addTree_perm none n nodes (h n List.mem_cons_self) hfst
      exact perm_of_perm_cons hn (ih (fun m hm => h m (List.mem_cons_of_mem n hm))
        (((keys_of_perm hn).append_left _).nodup_iff.mpr hsnd))

/-- **The store of trees with distinct ids stands for them.** -/
theorem stored_flatten {trees : List Node} (h : ∀ n ∈ trees, n.Embedded)
    (nodup : (ids (trees.map Node.branch)).Nodup) :
    Stored (trees.map Node.branch) (flatten trees).1 (flatten trees).2 where
  roots_eq := (Node.map_id_branch trees).symm
  entries_perm := by
    have hk : (∅ : Forest).keys = [] := rfl
    have he : (∅ : Forest).entries = [] := rfl
    have := @addTrees_perm trees ∅ h (by rwa [hk, List.append_nil])
    rwa [he, List.append_nil] at this

/-- A store and its roots are those of the trees that it stands for. -/
theorem flatten_eq {trees : List Node} {nodes : Forest} {roots : List String}
    (h : ∀ n ∈ trees, n.Embedded) (hs : Stored (trees.map Node.branch) nodes roots) :
    flatten trees = (nodes, roots) := by
  have hf := stored_flatten h hs.nodup
  have hn : (flatten trees).1 = nodes :=
    KeyMap.ext_perm (hf.entries_perm.trans hs.entries_perm.symm)
  have hr : (flatten trees).2 = roots := hf.roots_eq.trans hs.roots_eq.symm
  rw [← hn, ← hr]

end Forest

end Rulebook
