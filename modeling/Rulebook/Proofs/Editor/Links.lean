import Rulebook.Proofs.Node.Reshape
import Rulebook.Proofs.Node.Store

/-!
# Rulebook — Proofs — Editor — Links

The two steps of which edits are made: to list a node among siblings, and no longer to.  In between
a document holds the entries of a tree that is listed nowhere.

* `attach_spec`: a tree is listed among siblings as it is put there in the grove.
* `detach_spec`: what is no longer listed is the tree that is cut out of the grove.
-/

namespace Rulebook.Document

open Grove

variable {d : Document} {ts : List Branch} {q : Option String} {t : Branch}

/-- What is selected has nothing to do with where nodes are listed. -/
@[simp] theorem selected_attach (d : Document) (id : String) (above : Option String)
    (index : Option Nat) : (d.attach id above index).selected = d.selected := by
  cases above <;> rfl

@[simp] theorem selected_detach (d : Document) (id : String) (above : Option String) :
    (d.detach id above).selected = d.selected := by
  rw [detach]
  split <;> rfl

@[simp] theorem selected_put (d : Document) (id : String) (n : Node) :
    (d.put id n).selected = d.selected := rfl

@[simp] theorem selected_modify (d : Document) (id : String) (f : Node → Node) :
    (d.modify id f).selected = d.selected := rfl

@[simp] theorem selected_erase (d : Document) (ids : List String) :
    (d.erase ids).selected = d.selected := rfl

/-! ### The node of a changed list of siblings -/

/-- A vertex that gets another child is a node that lists its id too. -/
theorem node_putIn (q : Option String) (s : Branch) (index : Option Nat) (t : Branch) :
    { s.node q with children := insertAt index (.ref t.id) (s.node q).children } =
      Branch.node q ⟨s.vertex, putIn index t s.children⟩ := by
  simp only [Branch.node, map_putIn]
  rfl

/-- To leave out a tree is to leave out its id. -/
theorem map_others (f : Branch → α) (g : α → String) (hg : ∀ t, g (f t) = t.id) (p : String)
    (us : List Branch) : (others p us).map f = (us.map f).filter fun a => g a != p := by
  rw [List.filter_map, others]
  refine congrArg (List.map f) (List.filter_congr fun t _ => ?_)
  rw [Function.comp_apply, hg, bne, Bool.beq_eq_decide_eq, ← decide_not]

/-- A vertex that loses a child is a node that does not list its id. -/
theorem node_others (q : Option String) (s : Branch) (p : String) :
    { s.node q with children := (s.node q).children.filter fun e => e.id != p } =
      Branch.node q ⟨s.vertex, others p s.children⟩ := by
  simp only [Branch.node, map_others (fun c => Entry.ref c.id) Entry.id fun _ => rfl]
  rfl

/-! ### Listing -/

/-- A document with the entries `l` and `x`, of which `x` lacks but a tree below `above` to be the
entries of a grove, and with the roots of that grove. -/
structure Attached (above : Option String) (t : Branch) (us : List Branch)
    (l : List (String × Node)) (d : Document) (x : List (String × Node)) : Prop where
  entries_perm : d.nodes.entries.Perm (l ++ x)
  grown : (entries above [t] ++ x).Perm (entries none us)
  roots_eq : d.roots = us.map Branch.id

/-- **A tree is listed among siblings as it is put there in the grove.** -/
theorem attach_spec {l : List (String × Node)} (hr : d.roots = ts.map Branch.id)
    (he : d.nodes.entries.Perm (l ++ entries none ts)) (above : Option String)
    (habove : ∀ p, above = some p → p ∈ ids ts) (index : Option Nat) (t : Branch) :
    ∃ x, Attached above t (graft above index t ts) l (d.attach t.id above index) x ∧
      (x.map Prod.fst).Perm (ids ts) := by
  cases above with
  | none =>
      refine ⟨entries none ts, ⟨he, ?_, ?_⟩, .of_eq (keys_entries none ts)⟩
      · rw [← entries_cons_eq]
        exact (entries_perm none (putIn_perm index t ts)).symm
      · have := map_putIn Branch.id index t ts
        rw [← hr] at this
        exact this.symm
  | some p =>
      have nodup : (ids ts).Nodup := by
        have := (KeyMap.keys_perm he).nodup d.nodes.nodup_keys
        rw [List.map_append, keys_entries] at this
        exact (List.nodup_append.mp this).2.1
      obtain ⟨q, s, hs, rfl⟩ := exists_place_of_mem_ids none (habove p rfl)
      obtain ⟨rest, hself, hrest⟩ := entries_below nodup hs
      have hcons : d.nodes.entries.Perm
          ((s.id, s.node q) :: (l ++ (entries (some s.id) s.children ++ rest))) :=
        (he.trans (hself.append_left l)).trans List.perm_middle
      have hmod := KeyMap.modify_perm_of_cons hcons fun n =>
        { n with children := insertAt index (.ref t.id) n.children }
      rw [node_putIn] at hmod
      -- of the parent's entry and the children's only the parent's has changed
      refine ⟨(s.id, Branch.node q ⟨s.vertex, putIn index t s.children⟩) ::
        (entries (some s.id) s.children ++ rest), ⟨?_, ?_, ?_⟩, ?_⟩
      · exact hmod.trans List.perm_middle.symm
      · refine List.perm_middle.trans (List.Perm.trans ?_ (hrest (putIn index t)).symm)
        rw [← List.append_assoc, ← entries_cons_eq]
        exact (((entries_perm (some s.id) (putIn_perm index t s.children)).symm).append_right
          rest).cons _
      · exact hr.trans (map_id_below s.id (putIn index t) ts).symm
      · rw [← keys_entries none ts]
        exact (hself.map Prod.fst).symm

/-! ### Listing no longer -/

/-- A document that holds a grove and, listed nowhere, a tree. -/
structure Detached (q : Option String) (t : Branch) (us : List Branch) (d : Document) : Prop where
  entries_perm : d.nodes.entries.Perm (entries q [t] ++ entries none us)
  roots_eq : d.roots = us.map Branch.id

/-- A root that is taken off the list of roots is listed nowhere. -/
theorem detach_root (h : Stored ts d.nodes d.roots) (ht : t ∈ ts) :
    Detached none t (others t.id ts) (d.detach t.id none) where
  entries_perm := by
    rw [← entries_cons_eq]
    exact h.entries_perm.trans (entries_perm none (perm_cons_others (nodup_map_id h.nodup) ht))
  roots_eq := by
    have hroots : (d.detach t.id none).roots = d.roots.filter fun r => r != t.id := rfl
    rw [hroots, h.roots_eq, map_others Branch.id (fun r => r) fun _ => rfl]

/-- A child that is taken off its parent's list is listed nowhere. -/
theorem detach_child {r : Option String} {s : Branch} (h : Stored ts d.nodes d.roots)
    (hs : ⟨r, s⟩ ∈ places none ts) (ht : t ∈ s.children) :
    Detached (some s.id) t (below (some s.id) (others t.id) ts) (d.detach t.id (some s.id)) := by
  obtain ⟨rest, hself, hrest⟩ := entries_below h.nodup hs
  have hdetach : d.detach t.id (some s.id) = { d with
      nodes := d.nodes.insert s.id (Branch.node r ⟨s.vertex, others t.id s.children⟩) } := by
    rw [detach, parentNode?, Option.bind_some, h.get?_eq_some hs, ← node_others]
    rfl
  have hchildren := nodup_map_id (nodup_children h.nodup hs).2
  rw [hdetach]
  refine ⟨?_, h.roots_eq.trans (map_id_below s.id (others t.id) ts).symm⟩
  refine (KeyMap.insert_perm_of_cons (h.entries_perm.trans hself) _).trans
    (List.Perm.trans ?_ ((hrest (others t.id)).symm.append_left _))
  refine List.Perm.trans (List.Perm.cons _ ?_) List.perm_middle.symm
  rw [← List.append_assoc, ← entries_cons_eq]
  exact (entries_perm (some s.id) (perm_cons_others hchildren ht)).append_right rest

/-- **What is no longer listed is the tree that is cut out of the grove.** -/
theorem detach_spec (h : Stored ts d.nodes d.roots) (ht : ⟨q, t⟩ ∈ places none ts) :
    Detached q t (prune t.id ts) (d.detach t.id q) := by
  rw [prune_eq_below h.nodup ht]
  rcases above_of_mem_places ht with ⟨rfl, hmem⟩ | ⟨r, s, hs, rfl, hmem⟩
  · exact detach_root h hmem
  · exact detach_child h hs hmem

end Rulebook.Document
