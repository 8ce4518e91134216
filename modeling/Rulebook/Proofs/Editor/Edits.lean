import Mathlib.Data.List.InsertIdx
import Rulebook.Proofs.Editor.Links
import Rulebook.Proofs.Editor.Writes
import Rulebook.Proofs.Node.Supply

/-!
# Rulebook — Proofs — Editor — Edits

What the edits of a document are to the grove that it stands for.

* `stored_add`, `stored_update`, `stored_remove`, `stored_move`, `stored_reorder`, `stored_append`:
  after an edit the document stands for the edited grove.
* `exists_add`, `exists_update`, `exists_remove`, `exists_move`, `exists_reorder`: an edit is made
  where there is something to be done to the grove.
* `move_wouldCreateCycle_iff`: a node is not moved to itself or below itself.
-/

namespace Rulebook

/-- The vertex with the changes made. -/
def Patch.revise (p : Patch) (v : Vertex) : Vertex :=
  { v with
    label := p.label <|> v.label
    note := p.note.getD v.note
    config := p.config.getD v.config }

/-- The vertex of a node to be added. -/
def NewNode.vertex (new : NewNode) (id : String) : Vertex :=
  ⟨id, some (new.label.getD new.config.kind.label), new.note, new.config⟩

namespace Grove

/-- Changes what a vertex carries. -/
def revise (p : String) (patch : Patch) (ts : List Branch) : List Branch :=
  alter p (fun t => ⟨patch.revise t.vertex, t.children⟩) ts

/-- Puts a tree to an index among its siblings, to the last one if they are fewer; the others stay
in their order. -/
def arrange (index : Nat) (t : Branch) (us : List Branch) : List Branch :=
  (others t.id us).insertIdx (min index (us.length - 1)) t

/-- Nothing changes when a tree is put where it stands. -/
theorem arrange_eq_self {us : List Branch} {t : Branch} (nodup : (us.map Branch.id).Nodup)
    (ht : t ∈ us) {index : Nat}
    (h : (us.map Branch.id).findIdx? (· = t.id) = some (min index (us.length - 1))) :
    arrange index t us = us := by
  obtain ⟨l, r, rfl⟩ := List.append_of_mem ht
  have hfind : ((l ++ t :: r).map Branch.id).findIdx? (· = t.id) = some l.length := by
    rw [List.map_append, List.map_cons, List.nodup_append] at nodup
    have hl : (l.map Branch.id).findIdx? (· = t.id) = none :=
      List.findIdx?_eq_none_iff.mpr fun p hp =>
        decide_eq_false (nodup.2.2 p hp t.id List.mem_cons_self)
    simp [List.findIdx?_append, List.findIdx?_cons, hl]
  rw [hfind] at h
  rw [arrange, others_append_cons nodup, ← Option.some.inj h]
  have hmid : l.length < (l ++ t :: r).length := by simp
  have herase : (l ++ t :: r).eraseIdx l.length = l ++ r := by
    rw [List.eraseIdx_append_of_length_le (Nat.le_refl _), Nat.sub_self, List.eraseIdx_cons_zero]
  have hget : (l ++ t :: r)[l.length] = t := by simp
  have hsame := List.insertIdx_eraseIdx_getElem hmid
  rwa [herase, hget] at hsame

end Grove

namespace Document

open Grove

variable {d d' : Document} {ts : List Branch} {id p : String} {above q : Option String}
  {t : Branch}

/-- A node of a document is a vertex of its grove, under the id above it. -/
theorem get?_eq_some (h : Stored ts d.nodes d.roots) {n : Node} (hn : d.nodes.get? id = some n) :
    ∃ q t, ⟨q, t⟩ ∈ places none ts ∧ t.id = id ∧ t.node q = n := h.get?_eq_some_iff.mp hn

/-- Every vertex has a node. -/
theorem exists_get? (h : Stored ts d.nodes d.roots) (hid : id ∈ ids ts) :
    ∃ n, d.nodes.get? id = some n := by
  obtain ⟨q, t, ht, rfl⟩ := exists_place_of_mem_ids none hid
  exact ⟨t.node q, h.get?_eq_some ht⟩

/-- No unknown parent is named exactly if the parent is known or none is given. -/
theorem filter_eq_none_iff {m : Forest} : (above.filter fun p => !m.contains p) = none ↔
    ∀ p, above = some p → m.contains p = true := by
  rw [Option.filter_eq_none_iff]
  simp

/-! ### Adding and changing -/

/-- **A node that is added is the last child of its parent, or the last root**, and has no children.
-/
theorem stored_add (h : Stored ts d.nodes d.roots) {new : NewNode}
    (hd : d.add id new above = .ok d') :
    id ∉ ids ts ∧ (∀ p, above = some p → p ∈ ids ts) ∧
      Stored (graft above none ⟨new.vertex id, []⟩ ts) d'.nodes d'.roots := by
  rw [add] at hd
  split at hd
  · cases hd
  · rename_i hnew
    have hid : id ∉ ids ts := fun hm => hnew (h.contains_iff.mpr hm)
    split at hd
    · cases hd
    · rename_i hparent
      have habove : ∀ p, above = some p → p ∈ ids ts := fun p hp =>
        h.contains_iff.mp (filter_eq_none_iff.mp hparent p hp)
      refine ⟨hid, habove, ?_⟩
      -- the node is listed before it is put into the store
      obtain ⟨x, hx, hkeys⟩ := attach_spec (l := []) h.roots_eq h.entries_perm above habove none
        ⟨new.vertex id, []⟩
      cases hd
      refine ⟨hx.roots_eq, ?_⟩
      have hfresh : id ∉ x.map Prod.fst := fun hm => hid (hkeys.subset hm)
      exact (KeyMap.insert_perm hx.entries_perm hfresh _).trans hx.grown

/-- Nothing else than a known id or an unknown parent is against adding a node. -/
theorem exists_add (h : Stored ts d.nodes d.roots) (new : NewNode) (hid : id ∉ ids ts)
    (habove : ∀ p, above = some p → p ∈ ids ts) : ∃ d', d.add id new above = .ok d' := by
  have hnew : ¬ d.nodes.contains id = true := mt h.contains_iff.mp hid
  have hknown : (above.filter fun p => !d.nodes.contains p) = none :=
    filter_eq_none_iff.mpr fun p hp => h.contains_iff.mpr (habove p hp)
  rw [add, if_neg hnew, hknown]
  exact ⟨_, rfl⟩

/-- **An update changes the vertex and no links.** -/
theorem stored_update (h : Stored ts d.nodes d.roots) {patch : Patch}
    (hd : d.update id patch = some d') :
    id ∈ ids ts ∧ Stored (revise id patch ts) d'.nodes d'.roots := by
  obtain ⟨n, hn, rfl⟩ := Option.map_eq_some_iff.mp hd
  obtain ⟨q, t, ht, rfl, rfl⟩ := get?_eq_some h hn
  obtain ⟨rest, hself, hrest⟩ := entries_alter h.nodup ht
  rw [entries_cons, entries_nil, List.append_nil] at hself
  have hnew := hrest (fun t => ⟨patch.revise t.vertex, t.children⟩) fun _ => rfl
  rw [entries_cons, entries_nil, List.append_nil] at hnew
  refine ⟨mem_ids ht, ?_, ?_⟩
  · exact h.roots_eq.trans (map_id_alter (g := fun t => ⟨patch.revise t.vertex, t.children⟩)
      (fun _ => rfl) t.id ts).symm
  · exact (KeyMap.insert_perm_of_cons (h.entries_perm.trans hself) _).trans hnew.symm

/-- Every vertex can be updated. -/
theorem exists_update (h : Stored ts d.nodes d.roots) (patch : Patch) (hid : id ∈ ids ts) :
    ∃ d', d.update id patch = some d' := by
  obtain ⟨n, hn⟩ := exists_get? h hid
  rw [update, hn]
  exact ⟨_, rfl⟩

/-! ### Removing -/

/-- The ids that the walk below a node of a document collects are those of its tree. -/
theorem subtree_of_place (h : Stored ts d.nodes d.roots) (ht : ⟨q, t⟩ ∈ places none ts) :
    (d.nodes.subtree t.id).Perm (ids [t]) := by
  obtain ⟨rest, hrest⟩ := (places_sublist ht).exists_perm_append
  have := hrest.map Place.entry
  rw [List.map_append] at this
  exact Forest.subtree_perm (h.entries_perm.trans this)

/-- It makes no difference in which order nodes are dropped. -/
theorem drop_congr {ks ls : List String} (h : ks.Perm ls) (d : Document) :
    d.drop ks = d.drop ls := by
  have nodes : ks.foldl KeyMap.erase d.nodes = ls.foldl KeyMap.erase d.nodes := by
    refine KeyMap.ext_perm (.of_eq ?_)
    rw [KeyMap.entries_foldl_erase, KeyMap.entries_foldl_erase]
    exact List.filter_congr fun e _ => by simp only [h.mem_iff]
  simp only [drop, erase, deselect, nodes, h.contains_eq]

/-- The ids of a tree that is listed nowhere, and of what is left. -/
theorem Detached.keys_perm {us : List Branch} (h : Detached q t us d) :
    d.nodes.keys.Perm (ids [t] ++ ids us) := by
  have := KeyMap.keys_perm h.entries_perm
  rwa [List.map_append, keys_entries, keys_entries] at this

/-- When a tree that is listed nowhere is dropped, the document stands for the rest. -/
theorem Detached.stored_drop {us : List Branch} (h : Detached q t us d) :
    Stored us (d.drop (ids [t])).nodes (d.drop (ids [t])).roots where
  roots_eq := h.roots_eq
  entries_perm := by
    have hdisj := (List.nodup_append.mp (h.keys_perm.nodup d.nodes.nodup_keys)).2.2
    have hnone : (entries q [t]).filter (fun e => e.1 ∉ ids [t]) = [] := by
      refine List.filter_eq_nil_iff.mpr fun e he => ?_
      have : e.1 ∈ ids [t] := by
        rw [← keys_entries q]
        exact List.mem_map_of_mem he
      simpa using this
    have hall : (entries none us).filter (fun e => e.1 ∉ ids [t]) = entries none us := by
      refine List.filter_eq_self.mpr fun e he => ?_
      have : e.1 ∈ ids us := by
        rw [← keys_entries none]
        exact List.mem_map_of_mem he
      simpa using fun hm => hdisj e.1 hm e.1 this rfl
    have hdrop : (d.drop (ids [t])).nodes.entries =
        d.nodes.entries.filter fun e => e.1 ∉ ids [t] := KeyMap.entries_foldl_erase _ _
    have := h.entries_perm.filter fun e => decide (e.1 ∉ ids [t])
    rwa [List.filter_append, hnone, hall, List.nil_append, ← hdrop] at this

/-- **What is removed is the tree of a node**, as the document has it, and nothing else. -/
theorem remove_eq_some (h : Stored ts d.nodes d.roots) (hd : d.remove id = some d') :
    ∃ q t, ⟨q, t⟩ ∈ places none ts ∧ t.id = id ∧ d' = (d.detach t.id q).drop (ids [t]) := by
  obtain ⟨n, hn, rfl⟩ := Option.map_eq_some_iff.mp hd
  obtain ⟨q, t, ht, rfl, rfl⟩ := get?_eq_some h hn
  have hsub : ((d.detach t.id q).nodes.subtree t.id).Perm (ids [t]) :=
    Forest.subtree_perm (detach_spec h ht).entries_perm
  refine ⟨q, t, ht, rfl, ?_⟩
  simp only [Branch.parent_node, drop_congr hsub]

/-- **A removal prunes the grove.** -/
theorem stored_remove (h : Stored ts d.nodes d.roots) (hd : d.remove id = some d') :
    id ∈ ids ts ∧ Stored (prune id ts) d'.nodes d'.roots := by
  obtain ⟨q, t, ht, rfl, rfl⟩ := remove_eq_some h hd
  exact ⟨mem_ids ht, (detach_spec h ht).stored_drop⟩

/-- Every vertex can be removed. -/
theorem exists_remove (h : Stored ts d.nodes d.roots) (hid : id ∈ ids ts) :
    ∃ d', d.remove id = some d' := by
  obtain ⟨n, hn⟩ := exists_get? h hid
  rw [remove, hn]
  exact ⟨_, rfl⟩

/-! ### Moving -/

/-- The vertex above a tree is no part of it. -/
theorem above_not_mem_ids (nodup : (ids ts).Nodup) (ht : ⟨q, t⟩ ∈ places none ts)
    (hq : q = some p) : p ∉ ids [t] := by
  subst hq
  rcases above_of_mem_places ht with ⟨hnone, -⟩ | ⟨r, s, hs, hsome, hmem⟩
  · cases hnone
  · cases hsome
    have hsub := ids_sublist (mem_places_of_mem none hmem)
    exact fun hp => (nodup_children nodup hs).1 (hsub.subset hp)

/-- What is known and not in a tree is left when it is cut out. -/
theorem mem_ids_prune (nodup : (ids ts).Nodup) (ht : ⟨q, t⟩ ∈ places none ts) (hp : p ∈ ids ts)
    (hnot : p ∉ ids [t]) : p ∈ ids (prune t.id ts) :=
  (List.mem_append.mp ((ids_prune_perm nodup ht).mem_iff.mpr hp)).resolve_left hnot

/-- **A node is not moved to itself or below itself.** -/
theorem move_wouldCreateCycle_iff (h : Stored ts d.nodes d.roots) {index : Option Nat}
    {i p : String} : d.move id above index = .error (.wouldCreateCycle i p) ↔
      i = id ∧ above = some p ∧ ∃ place, locate id ts = some place ∧ p ∈ ids [place.branch] := by
  constructor
  · intro hd
    rw [move] at hd
    split at hd
    · cases hd
    · rename_i n hn
      split at hd
      · cases hd
      · split at hd
        · cases hd
        · split at hd
          · rename_i p' hp'
            cases hd
            obtain ⟨q, t, ht, rfl, rfl⟩ := get?_eq_some h hn
            obtain ⟨hp', hsub⟩ := Option.filter_eq_some_iff.mp hp'
            rw [List.contains_iff_mem, (subtree_of_place h ht).mem_iff] at hsub
            exact ⟨rfl, hp', ⟨q, t⟩, locate_eq h.nodup ht, hsub⟩
          · cases hd
  · rintro ⟨rfl, rfl, ⟨q, t⟩, hplace, hp⟩
    obtain ⟨ht, rfl⟩ := mem_of_locate hplace
    have hq : q ≠ some p := fun hq => above_not_mem_ids h.nodup ht hq hp
    have hmem : p ∈ ids ts := (ids_sublist ht).subset hp
    have hget : d.nodes.get? (Place.id ⟨q, t⟩) = some (t.node q) := h.get?_eq_some ht
    have hsub : (d.nodes.subtree (Place.id ⟨q, t⟩)).Perm (ids [t]) := subtree_of_place h ht
    rw [move, hget]
    simp only [Branch.parent_node, if_neg hq, Option.filter_some, h.contains_iff.mpr hmem,
      hsub.contains_eq, Bool.not_true, List.contains_iff_mem.mpr hp, if_true, Bool.false_eq_true,
      if_false]

/-- **A move prunes the tree and grafts it in another place.** -/
theorem stored_move (h : Stored ts d.nodes d.roots) {index : Option Nat}
    (hd : d.move id above index = .ok (some d')) :
    ∃ place, locate id ts = some place ∧ place.above ≠ above ∧
      (∀ p, above = some p → p ∈ ids (prune id ts)) ∧
      Stored (graft above index place.branch (prune id ts)) d'.nodes d'.roots := by
  rw [move] at hd
  split at hd
  · cases hd
  · rename_i n hn
    split at hd
    · cases hd
    · rename_i hother
      split at hd
      · cases hd
      · rename_i hknown
        split at hd
        · cases hd
        · rename_i houtside
          obtain ⟨q, t, ht, rfl, rfl⟩ := get?_eq_some h hn
          have hdet := detach_spec h ht
          have habove : ∀ p, above = some p → p ∈ ids (prune t.id ts) := by
            intro p hp
            have hmem := h.contains_iff.mp (filter_eq_none_iff.mp hknown p hp)
            refine mem_ids_prune h.nodup ht hmem fun hsub => ?_
            rw [hp, Option.filter_eq_none_iff] at houtside
            refine houtside p rfl (List.contains_iff_mem.mpr ?_)
            exact (subtree_of_place h ht).mem_iff.mpr hsub
          obtain ⟨x, hx, -⟩ := attach_spec hdet.roots_eq hdet.entries_perm above habove index t
          cases hd
          refine ⟨⟨q, t⟩, locate_eq h.nodup ht, hother, habove, hx.roots_eq, ?_⟩
          -- the tree is listed elsewhere; what is left is the parent that its own node names
          have hmoved := hx.entries_perm
          rw [entries_cons, entries_nil, List.append_nil, List.cons_append] at hmoved
          have hgrown := hx.grown
          rw [entries_cons, entries_nil, List.append_nil, List.cons_append] at hgrown
          exact (KeyMap.modify_perm_of_cons hmoved _).trans hgrown

/-- Every vertex can be moved to a parent that is not its own and not below it. -/
theorem exists_move (h : Stored ts d.nodes d.roots) {place : Place}
    (hplace : locate id ts = some place) (hother : place.above ≠ above)
    (habove : ∀ p, above = some p → p ∈ ids (prune id ts)) (index : Option Nat) :
    ∃ d', d.move id above index = .ok (some d') := by
  obtain ⟨q, t⟩ := place
  obtain ⟨ht, rfl⟩ := mem_of_locate hplace
  have hperm := ids_prune_perm h.nodup ht
  have hget : d.nodes.get? (Place.id ⟨q, t⟩) = some (t.node q) := h.get?_eq_some ht
  have hsub : (d.nodes.subtree (Place.id ⟨q, t⟩)).Perm (ids [t]) := subtree_of_place h ht
  have hknown : (above.filter fun p => !d.nodes.contains p) = none :=
    filter_eq_none_iff.mpr fun p hp => h.contains_iff.mpr
      (hperm.mem_iff.mp (List.mem_append_right _ (habove p hp)))
  have houtside : (above.filter fun p => (ids [t]).contains p) = none := by
    refine Option.filter_eq_none_iff.mpr fun p hp hin => ?_
    have hdisj := List.disjoint_of_nodup_append (hperm.symm.nodup h.nodup)
    exact hdisj (List.contains_iff_mem.mp hin) (habove p hp)
  rw [move, hget]
  simp only [Branch.parent_node, if_neg hother, hknown, hsub.contains_eq, houtside]
  exact ⟨_, rfl⟩

/-! ### Moving among siblings -/

/-- A list of siblings in a document is one of the grove. -/
theorem siblings_spec (h : Stored ts d.nodes d.roots) (ht : ⟨q, t⟩ ∈ places none ts) :
    ∃ us, d.siblings q = us.map Branch.id ∧ t ∈ us ∧ (us.map Branch.id).Nodup ∧
      ∀ k k' : List Branch → List Branch, k us = k' us → below q k ts = below q k' ts := by
  rcases above_of_mem_places ht with ⟨rfl, hmem⟩ | ⟨r, s, hs, rfl, hmem⟩
  · exact ⟨ts, h.roots_eq, hmem, nodup_map_id h.nodup, fun k k' hk => hk⟩
  · refine ⟨s.children, ?_, hmem, nodup_map_id (nodup_children h.nodup hs).2, fun k k' hk => ?_⟩
    · rw [siblings, parentNode?, Option.bind_some, h.get?_eq_some hs]
      exact Branch.childIds_node r s
    · exact alter_congr h.nodup hs (congrArg (Branch.mk s.vertex) hk)

/-- **A reordering arranges the list of siblings and no other one.** -/
theorem stored_reorder (h : Stored ts d.nodes d.roots) {index : Nat}
    (hd : d.reorder id index = some d') :
    ∃ place, locate id ts = some place ∧
      Stored (below place.above (arrange index place.branch) ts) d'.nodes d'.roots := by
  obtain ⟨n, hn, hd⟩ := Option.bind_eq_some_iff.mp hd
  obtain ⟨place, -, hd⟩ := Option.bind_eq_some_iff.mp hd
  obtain ⟨q, t, ht, rfl, rfl⟩ := get?_eq_some h hn
  obtain ⟨us, hus, hmem, hnodup, hcongr⟩ := siblings_spec h ht
  rw [Branch.parent_node, hus, List.length_map] at hd
  dsimp only at hd
  split at hd
  · cases hd
  · have hdet := detach_spec h ht
    have habove : ∀ p, q = some p → p ∈ ids (prune t.id ts) := by
      intro p hp
      refine mem_ids_prune h.nodup ht ?_ (above_not_mem_ids h.nodup ht hp)
      rcases above_of_mem_places ht with ⟨rfl, -⟩ | ⟨r, s, hs, rfl, -⟩
      · cases hp
      · cases hp
        exact mem_ids hs
    obtain ⟨x, hx, -⟩ := attach_spec hdet.roots_eq hdet.entries_perm q habove
      (some (min index (us.length - 1))) t
    -- for the one list of siblings that there is, the index of the document is that of the grove
    have harrange : graft q (some (min index (us.length - 1))) t (prune t.id ts) =
        below q (arrange index t) ts := by
      rw [prune_eq_below h.nodup ht, graft, below_below]
      refine hcongr _ _ ?_
      have hlen : (others t.id us).length = us.length - 1 := by
        rw [(perm_cons_others hnodup hmem).length_eq, List.length_cons, Nat.add_sub_cancel]
      rw [putIn, arrange, hlen, Nat.min_eq_left (Nat.min_le_right index (us.length - 1))]
    cases hd
    refine ⟨⟨q, t⟩, locate_eq h.nodup ht, ?_⟩
    rw [← harrange]
    exact ⟨hx.roots_eq, hx.entries_perm.trans hx.grown⟩

/-- A tree is not put where it stands, and else it is. -/
theorem exists_reorder (h : Stored ts d.nodes d.roots) {index : Nat} {place : Place}
    (hplace : locate id ts = some place)
    (hne : below place.above (arrange index place.branch) ts ≠ ts) :
    ∃ d', d.reorder id index = some d' := by
  obtain ⟨q, t⟩ := place
  obtain ⟨ht, rfl⟩ := mem_of_locate hplace
  obtain ⟨us, hus, hmem, hnodup, hcongr⟩ := siblings_spec h ht
  have hget : d.nodes.get? (Place.id ⟨q, t⟩) = some (t.node q) := h.get?_eq_some ht
  obtain ⟨k, hk⟩ : ∃ k, (us.map Branch.id).findIdx? (· = t.id) = some k := by
    refine Option.isSome_iff_exists.mp (List.findIdx?_isSome.trans ?_)
    exact List.any_eq_true.mpr ⟨t.id, List.mem_map_of_mem hmem, decide_eq_true rfl⟩
  have hmove : min index ((us.map Branch.id).length - 1) ≠ k := by
    rintro rfl
    refine hne ((hcongr _ (fun us => us) ?_).trans (below_self q ts))
    exact arrange_eq_self hnodup hmem (by rwa [List.length_map] at hk)
  rw [reorder, hget]
  simp only [Option.bind_eq_bind, Option.bind_some, Branch.parent_node, hus]
  rw [show Place.id ⟨q, t⟩ = t.id from rfl, hk, Option.bind_some, if_neg hmove]
  exact ⟨_, rfl⟩

/-! ### Appending -/

/-- **Imported trees stand behind those that were there**, in their order. -/
theorem stored_append (h : Stored ts d.nodes d.roots) {trees : List Node}
    (embedded : ∀ n ∈ trees, n.Embedded)
    (nodup : (ids (trees.map Node.branch) ++ d.nodes.keys).Nodup) :
    Stored (ts ++ trees.map Node.branch) (d.append trees).nodes (d.append trees).roots where
  roots_eq := by
    have hroots : (d.append trees).roots = d.roots ++ trees.map Node.id := rfl
    rw [hroots, h.roots_eq, List.map_append, Node.map_id_branch]
  entries_perm := by
    rw [entries_append]
    exact ((Forest.addTrees_perm embedded nodup).trans (h.entries_perm.append_left _)).trans
      List.perm_append_comm

end Document

end Rulebook
