import Rulebook.Proofs.Node.Store

/-!
# Rulebook — Proofs — Node — Build

The tree below a root of a store that stands for a grove.  It is put together again unless it has
more levels than may be built, and then the error names the first vertex below the last level.

* `Stored.build_eq`: the one outcome or the other, by the vertices on the first level too many.
-/

namespace Rulebook

namespace Branch

/-- The ids on a level of a tree, in order; the top is level zero. -/
def onLevel : (level : Nat) → Branch → List String
  | 0, t => [t.id]
  | level + 1, t => t.children.flatMap (onLevel level)

mutual

/-- The node in which a tree is embedded below a parent, every node in it naming its container. -/
def grown (above : Option String) : Branch → Node
  | ⟨v, cs⟩ => ⟨v.id, v.label, v.note, grownAll v.id cs, above, v.config⟩

/-- The entries in which trees are embedded below a node. -/
def grownAll (id : String) : List Branch → List Entry
  | [] => []
  | t :: ts => .node (grown (some id) t) :: grownAll id ts

end

theorem grownAll_eq_map (id : String) (ts : List Branch) :
    grownAll id ts = ts.map fun t => .node (grown (some id) t) := by
  induction ts with
  | nil => rfl
  | cons t ts ih => rw [grownAll, ih, List.map_cons]

/-- A tree is grown from its node, with its children grown below its id. -/
theorem grown_eq (above : Option String) (t : Branch) : t.grown above =
    { t.node above with children := t.children.map fun c => .node (c.grown (some t.id)) } := by
  obtain ⟨v, cs⟩ := t
  rw [grown, grownAll_eq_map]
  rfl

end Branch

namespace Forest

open Grove

/-- What comes of putting a tree together when some vertices are on a level too many: the first of
them is the reason that nothing does. -/
def builtUnless {α : Type} (beyond : List String) (built : α) : Except StructureError α :=
  match beyond with
  | [] => .ok built
  | id :: _ => .error (.tooDeep id)

/-- The outcomes for several trees together are that for all of them. -/
theorem mapM_builtUnless {α β : Type} {f : α → Except StructureError β} {g : α → β}
    {beyond : α → List String} {l : List α}
    (h : ∀ a ∈ l, f a = builtUnless (beyond a) (g a)) :
    l.mapM f = builtUnless (l.flatMap beyond) (l.map g) := by
  induction l with
  | nil => rfl
  | cons a l ih =>
      obtain ⟨ha, hl⟩ := List.forall_mem_cons.mp h
      rw [List.mapM_cons, ha, ih hl, List.flatMap_cons, List.map_cons]
      cases beyond a with
      | cons id ids => rfl
      | nil =>
          cases l.flatMap beyond with
          | cons id ids => rfl
          | nil => rfl

variable {nodes : Forest} {levels : Nat} {path : List String} {n : Node} {above : Option String}

/-- What becomes of a child of a node with an id, below a path that ends with it. -/
def grow (nodes : Forest) (levels : Nat) (path : List String) (id : String) (c : Entry) :
    Except StructureError Entry := do
  let child ← resolve nodes id c
  let tree ← materialize nodes levels path child
  return .node { tree with parent := some id }

/-- A node on the path closes a cycle. -/
theorem materialize_of_mem (h : n.id ∈ path) :
    materialize nodes levels path n = .error (.cycle (path ++ [n.id])) := by
  cases levels <;> rw [materialize, if_pos (List.contains_iff_mem.mpr h)]

/-- With no level left, the tree is too deep. -/
theorem materialize_zero (h : n.id ∉ path) :
    materialize nodes 0 path n = .error (.tooDeep n.id) := by
  rw [materialize, if_neg fun hc => h (List.contains_iff_mem.mp hc)]

/-- Below the path, a node is put together by putting its children together. -/
theorem materialize_succ (h : n.id ∉ path) : materialize nodes (levels + 1) path n =
    (n.children.mapM (grow nodes levels (path ++ [n.id]) n.id)).map
      fun children => { n with children } := by
  rw [materialize, if_neg fun hc => h (List.contains_iff_mem.mp hc)]
  exact bind_pure_comp _ _

/-- The top of a tree whose ids are apart from the path is not on it. -/
theorem not_mem_of_nodup {t : Branch} (nodup : (path ++ ids [t]).Nodup) : t.id ∉ path := by
  rw [ids_cons] at nodup
  exact fun hm => List.disjoint_of_nodup_append nodup hm List.mem_cons_self

/-- The tree below a vertex is put together on as many levels as are left, with nothing of it on
the path that leads to it. -/
theorem materialize_eq (levels : Nat) (path : List String) (t : Branch)
    (h : entries above [t] ⊆ nodes.entries) (nodup : (path ++ ids [t]).Nodup) :
    materialize nodes levels path (t.node above) =
      builtUnless (t.onLevel levels) (t.grown above) := by
  induction levels generalizing above path t with
  | zero => exact materialize_zero (not_mem_of_nodup nodup)
  | succ levels ih =>
      have fresh : (t.node above).id ∉ path := not_mem_of_nodup nodup
      have child : ∀ c ∈ t.children, grow nodes levels (path ++ [t.id]) t.id (.ref c.id) =
          builtUnless (c.onLevel levels) (.node (c.grown (some t.id))) := by
        intro c hc
        have hplace := mem_places_of_mem (some t.id) hc
        have hbelow : ∀ e ∈ entries (some t.id) t.children, e ∈ nodes.entries := fun e he => by
          refine h ?_
          rw [entries_cons]
          exact List.mem_cons_of_mem _ (List.mem_append_left _ he)
        have hget : nodes.get? c.id = some (c.node (some t.id)) :=
          KeyMap.get?_eq_some_iff.mpr (hbelow _ (mem_entries hplace))
        have hnodup : (path ++ [t.id] ++ ids [c]).Nodup := by
          rw [List.append_assoc]
          rw [ids_cons, ids_nil, List.append_nil] at nodup
          exact nodup.sublist (((ids_sublist hplace).cons_cons t.id).append_left path)
        have hc' := ih (path ++ [t.id]) c (fun e he => hbelow e (entries_subset hplace he)) hnodup
        simp only [grow, resolve, hget, bind, Except.bind, hc']
        cases c.onLevel levels with
        | nil => rw [Branch.grown_eq]; rfl
        | cons id ids => rfl
      have children : (t.node above).children.mapM (grow nodes levels (path ++ [t.id]) t.id) = _ :=
        (List.mapM_map ..).trans (mapM_builtUnless child)
      rw [materialize_succ fresh, Branch.onLevel, Branch.grown_eq]
      refine (congrArg _ children).trans ?_
      cases t.children.flatMap (Branch.onLevel levels) <;> rfl

/-- The tree of a grove's entries is put together from any store that has them. -/
theorem build_eq {t : Branch} (h : entries none [t] ⊆ nodes.entries) (nodup : (ids [t]).Nodup) :
    nodes.build t.id = builtUnless (t.onLevel nestingLimit) (t.grown none) := by
  have top : nodes.get? t.id = some (t.node none) :=
    KeyMap.get?_eq_some_iff.mpr (h (mem_entries (mem_places_of_mem none List.mem_cons_self)))
  rw [build, top]
  exact materialize_eq nestingLimit [] t h nodup

end Forest

/-- **What comes of a tree in the store of a grove:** it is put together if no vertex is on the
level behind the limit, and else the first such vertex is the reason. -/
theorem Stored.build_eq {ts : List Branch} {nodes : Forest} {roots : List String}
    (h : Stored ts nodes roots) {t : Branch} (ht : t ∈ ts) :
    nodes.build t.id = Forest.builtUnless (t.onLevel nestingLimit) (t.grown none) := by
  have hplace := Grove.mem_places_of_mem none ht
  exact Forest.build_eq (h.entries_subset hplace) (h.nodup.sublist (Grove.ids_sublist hplace))

end Rulebook
