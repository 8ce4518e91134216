import Mathlib.Data.List.Nodup
import Mathlib.Data.List.Perm.Subperm
import Mathlib.Order.WellFounded
import Rulebook.Node.Structure
import Rulebook.Proofs.KeyMap

/-!
# Rulebook — Proofs — Node — Cycles

The search for cycles finds one exactly if there is one.  A search that finds nothing has finished
with nodes only from which every way down ends; and where every way down ends, no child stands on
the path that leads to it.

* `cycles_eq_nil_iff`: no cycle is found exactly if going down is well-founded.
-/

namespace Rulebook.Forest

variable {nodes : Forest} {path : List String} {id : String} {s t : Search} {fuel : Nat}

/-- The ids of a node's children, if there is such a node. -/
def childrenAt (nodes : Forest) (id : String) : List String :=
  match nodes.get? id with
  | some n => n.childIds
  | none => []

/-- One id is listed below another. -/
def ChildOf (nodes : Forest) (child parent : String) : Prop := child ∈ childrenAt nodes parent

theorem childrenAt_of_get? {n : Node} (h : nodes.get? id = some n) :
    childrenAt nodes id = n.childIds := by rw [childrenAt, h]

/-- An id without a node has nothing below it. -/
theorem acc_of_not_mem_keys (h : id ∉ nodes.keys) : Acc (ChildOf nodes) id := by
  refine Acc.intro id fun c hc => ?_
  rw [ChildOf, childrenAt, KeyMap.get?_eq_none_iff.mpr h] at hc
  exact absurd hc List.not_mem_nil

/-- What a search does at a child, with the path that leads to it. -/
def visit (nodes : Forest) (fuel : Nat) (path : List String) (s : Search) (child : String) :
    Search :=
  if path.contains child then
    { s with found := s.found ++ [.cycle (path.dropWhile (· != child) ++ [child])] }
  else if s.finished.contains child || !nodes.contains child then s
  else searchFrom nodes fuel path child s

/-- A search goes through the children in their order and is then finished with the node. -/
theorem searchFrom_succ (nodes : Forest) (fuel : Nat) (path : List String) (id : String)
    (s : Search) :
    searchFrom nodes (fuel + 1) path id s =
      { (childrenAt nodes id).foldl (visit nodes fuel (path ++ [id])) s with
        finished := id ::
          ((childrenAt nodes id).foldl (visit nodes fuel (path ++ [id])) s).finished } := rfl

/-! ### A search that finds nothing -/

/-- If nothing is found, every way down from the finished nodes ends. -/
def Search.Sound (nodes : Forest) (s : Search) : Prop :=
  s.found = [] → ∀ id ∈ s.finished, Acc (ChildOf nodes) id

/-- A search goes on to another: nothing found is lost, and no finished node. -/
structure Search.Continues (s t : Search) : Prop where
  found : t.found = [] → s.found = []
  finished : s.finished ⊆ t.finished

theorem Search.Continues.refl (s : Search) : s.Continues s := ⟨fun h => h, List.Subset.refl _⟩

theorem Search.Continues.trans {u : Search} (h : s.Continues t) (h' : t.Continues u) :
    s.Continues u :=
  ⟨fun hu => h.found (h'.found hu), List.Subset.trans h.finished h'.finished⟩

/-- The path to a node, as a search keeps it: distinct nodes, of which there is still one more. -/
structure OnPath (nodes : Forest) (fuel : Nat) (path : List String) (id : String) : Prop where
  nodup : (path ++ [id]).Nodup
  subset : path ++ [id] ⊆ nodes.keys
  fuel_le : nodes.size ≤ fuel + path.length

/-- There is fuel left as long as the path can grow. -/
theorem OnPath.fuel_pos (h : OnPath nodes fuel path id) : fuel ≠ 0 := by
  have hle : (path ++ [id]).length ≤ nodes.keys.length :=
    (List.subperm_of_subset h.nodup h.subset).length_le
  have hsize : nodes.keys.length = nodes.size := List.length_map _
  have := h.fuel_le
  rw [List.length_append, List.length_singleton, hsize] at hle
  omega

/-- A child that is not on the path yet prolongs it, with one less fuel. -/
theorem OnPath.child {child : String} (h : OnPath nodes (fuel + 1) path id)
    (hc : child ∉ path ++ [id]) (hk : child ∈ nodes.keys) :
    OnPath nodes fuel (path ++ [id]) child where
  nodup := List.nodup_append.mpr ⟨h.nodup, List.nodup_singleton child, by
    rintro a ha b hb rfl
    exact hc (List.mem_singleton.mp hb ▸ ha)⟩
  subset := List.append_subset.mpr ⟨h.subset, List.cons_subset.mpr ⟨hk, List.nil_subset _⟩⟩
  fuel_le := by
    have := h.fuel_le
    rw [List.length_append, List.length_singleton]
    omega

/-- What a search from a node comes to. -/
structure Search.Finishes (nodes : Forest) (id : String) (s t : Search) : Prop where
  sound : t.Sound nodes
  continues : s.Continues t
  finished : id ∈ t.finished

/-- What a search at a child comes to: if nothing is found, every way down from it ends. -/
structure Search.Clears (nodes : Forest) (children : List String) (s t : Search) : Prop where
  sound : t.Sound nodes
  continues : s.Continues t
  cleared : t.found = [] → ∀ c ∈ children, Acc (ChildOf nodes) c

/-- A look at a child clears it if a search from it finishes. -/
theorem visit_clears {child : String} (hs : s.Sound nodes)
    (hsearch : child ∉ path → child ∈ nodes.keys →
      s.Finishes nodes child (searchFrom nodes fuel path child s)) :
    s.Clears nodes [child] (visit nodes fuel path s child) := by
  rw [visit]
  split
  · -- a cycle is found, so there is nothing to show
    have hne : ∀ e : StructureError, s.found ++ [e] ≠ [] := fun e => by simp
    exact ⟨fun h => absurd h (hne _), ⟨fun h => absurd h (hne _), List.Subset.refl _⟩,
      fun h => absurd h (hne _)⟩
  · rename_i hpath
    split
    · rename_i hdone
      refine ⟨hs, .refl s, fun hf c hc => ?_⟩
      rw [List.mem_singleton.mp hc]
      rcases Bool.or_eq_true_iff.mp hdone with h | h
      · exact hs hf child (List.contains_iff_mem.mp h)
      · -- a dangling child has nothing below it
        refine acc_of_not_mem_keys fun hk => ?_
        rw [KeyMap.contains_iff_mem_keys.mpr hk] at h
        exact Bool.false_ne_true h
    · rename_i hnew
      have hk : child ∈ nodes.keys := by
        rw [← KeyMap.contains_iff_mem_keys]
        by_contra hno
        exact hnew (by simp [hno])
      obtain ⟨hsound, hext, hfin⟩ := hsearch (fun h => hpath (List.contains_iff_mem.mpr h)) hk
      refine ⟨hsound, hext, fun hf c hc => ?_⟩
      rw [List.mem_singleton.mp hc]
      exact hsound hf child hfin

/-- Looking at one child after the other clears them all if each look clears its child. -/
theorem foldl_clears {step : Search → String → Search} {children : List String}
    (hstep : ∀ s : Search, s.Sound nodes → ∀ c ∈ children, s.Clears nodes [c] (step s c))
    (hs : s.Sound nodes) : s.Clears nodes children (children.foldl step s) := by
  induction children generalizing s with
  | nil => exact ⟨hs, .refl s, fun _ c hc => absurd hc List.not_mem_nil⟩
  | cons c cs ih =>
      have hc := hstep s hs c List.mem_cons_self
      have hcs := ih (fun s hs c hc => hstep s hs c (List.mem_cons_of_mem _ hc)) hc.sound
      refine ⟨hcs.sound, hc.continues.trans hcs.continues, fun hf d hd => ?_⟩
      rcases List.mem_cons.mp hd with rfl | hd
      · exact hc.cleared (hcs.continues.found hf) d List.mem_cons_self
      · exact hcs.cleared hf d hd

/-- A search with the fuel for the rest of the path finishes with its node. -/
theorem searchFrom_finishes (hp : OnPath nodes fuel path id) (hs : s.Sound nodes) :
    s.Finishes nodes id (searchFrom nodes fuel path id s) := by
  induction fuel generalizing path id s with
  | zero => exact absurd rfl hp.fuel_pos
  | succ fuel ih =>
      have hstep : ∀ s : Search, s.Sound nodes → ∀ c ∈ childrenAt nodes id,
          s.Clears nodes [c] (visit nodes fuel (path ++ [id]) s c) := fun s hs c _ =>
        visit_clears hs fun hc hk => ih (hp.child hc hk) hs
      obtain ⟨hsound, hext, hclear⟩ := foldl_clears hstep hs
      rw [searchFrom_succ]
      refine ⟨fun hf d hd => ?_, ⟨hext.found, fun d hd => ?_⟩, List.mem_cons_self⟩
      · rcases List.mem_cons.mp hd with rfl | hd
        · exact Acc.intro d fun c hc => hclear hf c hc
        · exact hsound hf d hd
      · exact List.mem_cons_of_mem _ (hext.finished hd)

/-- If no cycle is found, going down is well-founded. -/
theorem wellFounded_of_cycles_eq_nil (h : cycles nodes = []) :
    WellFounded (ChildOf nodes) := by
  have hsize : nodes.size ≤ nodes.size + ([] : List String).length := Nat.le_refl _
  have hstep : ∀ s : Search, s.Sound nodes → ∀ id ∈ nodes.keys,
      s.Clears nodes [id]
        (if s.finished.contains id then s else searchFrom nodes nodes.size [] id s) := by
    intro s hs id hid
    split
    · rename_i hdone
      refine ⟨hs, .refl s, fun hf c hc => ?_⟩
      rw [List.mem_singleton.mp hc]
      exact hs hf id (List.contains_iff_mem.mp hdone)
    · obtain ⟨hsound, hext, hfin⟩ := searchFrom_finishes (s := s)
        ⟨List.nodup_singleton id, List.cons_subset.mpr ⟨hid, List.nil_subset _⟩, hsize⟩ hs
      refine ⟨hsound, hext, fun hf c hc => ?_⟩
      rw [List.mem_singleton.mp hc]
      exact hsound hf id hfin
  have hstart : Search.Sound nodes ⟨[], []⟩ := fun _ id hid => absurd hid List.not_mem_nil
  have hclear := (foldl_clears hstep hstart).cleared h
  refine ⟨fun id => ?_⟩
  by_cases hid : id ∈ nodes.keys
  · exact hclear id hid
  · exact acc_of_not_mem_keys hid

/-! ### A search where every way down ends -/

/-- Steps that find nothing find nothing one after the other. -/
theorem foldl_found {step : Search → String → Search} {children : List String}
    (hstep : ∀ s : Search, ∀ c ∈ children, (step s c).found = s.found) :
    (children.foldl step s).found = s.found := by
  induction children generalizing s with
  | nil => rfl
  | cons c cs ih =>
      rw [List.foldl_cons, ih fun s d hd => hstep s d (List.mem_cons_of_mem c hd)]
      exact hstep s c List.mem_cons_self

/-- A search below nodes that it cannot come back to finds nothing. -/
theorem found_searchFrom (wf : WellFounded (ChildOf nodes))
    (h : ∀ p ∈ path, Relation.TransGen (ChildOf nodes) id p) :
    (searchFrom nodes fuel path id s).found = s.found := by
  induction fuel generalizing path id s with
  | zero => rfl
  | succ fuel ih =>
      rw [searchFrom_succ]
      refine foldl_found fun s c hc => ?_
      have hbelow : ∀ p ∈ path ++ [id], Relation.TransGen (ChildOf nodes) c p := by
        intro p hp
        rcases List.mem_append.mp hp with hp | hp
        · exact .head hc (h p hp)
        · rw [List.mem_singleton.mp hp]
          exact .single hc
      rw [visit]
      split
      · -- a child on the path would stand below itself
        rename_i hpath
        have := hbelow c (List.contains_iff_mem.mp hpath)
        exact absurd this (wf.transGen.irrefl.irrefl c)
      · split
        · rfl
        · exact ih hbelow

/-- If going down is well-founded, no cycle is found. -/
theorem cycles_eq_nil_of_wellFounded (wf : WellFounded (ChildOf nodes)) : cycles nodes = [] := by
  refine foldl_found (s := ⟨[], []⟩) fun s id _ => ?_
  split
  · rfl
  · exact found_searchFrom wf fun p hp => absurd hp List.not_mem_nil

/-- **No cycle is found exactly if going down is well-founded.** -/
theorem cycles_eq_nil_iff : cycles nodes = [] ↔ WellFounded (ChildOf nodes) :=
  ⟨wellFounded_of_cycles_eq_nil, cycles_eq_nil_of_wellFounded⟩

end Rulebook.Forest
