import Mathlib.Data.Fintype.EquivFin
import Mathlib.Data.Fintype.Sets
import Rulebook.Proofs.Node.Flatten
import Rulebook.Proofs.Node.Structure

/-!
# Rulebook — Proofs — Node — Regrow

A store without problems stands for a grove.  The tree below each node is grown from the trees
below its children, which going down being well-founded allows.  That no node is left out, and none
grown twice, is counted: a node is grown as often as its parent, and a root once.

* `Linked.exists_stored`: links that agree are those of a grove.
-/

namespace Rulebook.Forest

open Grove

variable {nodes : Forest} {roots : List String}

/-- Nodes that are kept under their own ids, and refer to their children by ids. -/
structure Plain (nodes : Forest) : Prop where
  key : ∀ e ∈ nodes.entries, e.2.id = e.1
  ref : ∀ e ∈ nodes.entries, ∀ c ∈ e.2.children, ∃ id, c = .ref id

/-- The entries of trees, one by one. -/
theorem entries_subset_of_forall {a : Option String} {ts : List Branch}
    {l : List (String × Node)} (h : ∀ t ∈ ts, entries a [t] ⊆ l) : entries a ts ⊆ l := by
  induction ts with
  | nil => exact List.nil_subset l
  | cons t ts ih =>
      rw [entries_cons_eq, List.append_subset]
      exact ⟨h t List.mem_cons_self, ih fun s hs => h s (List.mem_cons_of_mem t hs)⟩

/-- For ids that each have a suitable tree, there is a list of such trees. -/
theorem exists_map_id_eq {P : Branch → Prop} {l : List String}
    (h : ∀ p ∈ l, ∃ t, Branch.id t = p ∧ P t) :
    ∃ ts : List Branch, ts.map Branch.id = l ∧ ∀ t ∈ ts, P t := by
  induction l with
  | nil => exact ⟨[], rfl, fun t ht => absurd ht List.not_mem_nil⟩
  | cons p l ih =>
      obtain ⟨t, rfl, ht⟩ := h p List.mem_cons_self
      obtain ⟨ts, rfl, hts⟩ := ih fun q hq => h q (List.mem_cons_of_mem _ hq)
      exact ⟨t :: ts, rfl, List.forall_mem_cons.mpr ⟨ht, hts⟩⟩

/-- A node is that of a tree whose children it lists. -/
theorem Plain.node_eq (h : Plain nodes) {p : String} {n : Node} (hn : (p, n) ∈ nodes.entries)
    {cs : List Branch} (hc : cs.map Branch.id = n.childIds) :
    Branch.node n.parent ⟨n.vertex, cs⟩ = n := by
  have hrefs : n.children = n.childIds.map Entry.ref := by
    have href := h.ref _ hn
    rw [Node.childIds, List.map_map]
    refine (List.map_id' n.children).symm.trans (List.map_congr_left fun c hmem => ?_)
    obtain ⟨id, rfl⟩ := href c hmem
    rfl
  have : cs.map (fun c => Entry.ref c.id) = n.children := by
    rw [hrefs, ← hc, List.map_map]
    rfl
  cases n
  simp only [Branch.node, Node.vertex] at this ⊢
  rw [this]
  rfl

namespace Linked

variable (h : Linked nodes roots) (plain : Plain nodes)
include h plain

/-- Below every node there is a tree. -/
theorem exists_tree (p : String) : ∀ n, nodes.get? p = some n →
    ∃ t, Branch.id t = p ∧ entries n.parent [t] ⊆ nodes.entries := by
  induction p using h.wellFounded.induction with
  | h p ih =>
      intro n hn
      have hmem := KeyMap.get?_eq_some_iff.mp hn
      -- each child names this node as its parent, so its tree belongs below it
      have hbelow : ∀ c ∈ n.childIds,
          ∃ t, Branch.id t = c ∧ entries (some p) [t] ⊆ nodes.entries := by
        intro c hc
        obtain ⟨m, hm, hp⟩ := h.child p n hn c hc
        have hchild : ChildOf nodes c p := by rwa [ChildOf, childrenAt_of_get? hn]
        obtain ⟨t, ht, hsub⟩ := ih c hchild m hm
        exact ⟨t, ht, hp ▸ hsub⟩
      obtain ⟨cs, hcs, hsub⟩ := exists_map_id_eq hbelow
      have hid : n.id = p := plain.key _ hmem
      refine ⟨⟨n.vertex, cs⟩, hid, ?_⟩
      have hroot : Branch.id ⟨n.vertex, cs⟩ = p := hid
      rw [entries_cons, entries_nil, List.append_nil, plain.node_eq hmem hcs, hroot,
        List.cons_subset]
      exact ⟨hmem, entries_subset_of_forall hsub⟩

/-- Below the roots there is a grove whose entries are all in the store. -/
theorem exists_grove : ∃ ts : List Branch, ts.map Branch.id = roots ∧
    entries none ts ⊆ nodes.entries := by
  have htree : ∀ r ∈ roots, ∃ t, Branch.id t = r ∧ entries none [t] ⊆ nodes.entries := by
    intro r hr
    obtain ⟨n, hn, hp⟩ := h.root r hr
    obtain ⟨t, ht, hsub⟩ := h.exists_tree plain r n hn
    exact ⟨t, ht, hp ▸ hsub⟩
  obtain ⟨ts, hts, hsub⟩ := exists_map_id_eq htree
  exact ⟨ts, hts, entries_subset_of_forall hsub⟩

omit plain

/-- Going up is well-founded as well, for there are finitely many nodes. -/
theorem induction_up {P : String → Prop}
    (step : ∀ c n, nodes.get? c = some n → (∀ p, n.parent = some p → P p) → P c) :
    ∀ c n, nodes.get? c = some n → P c := by
  let above : {k // k ∈ nodes.keys} → {k // k ∈ nodes.keys} → Prop := fun a b =>
    Relation.TransGen (ChildOf nodes) b.1 a.1
  have : IsTrans _ above := ⟨fun _ _ _ hab hbc => hbc.trans hab⟩
  have : Std.Irrefl above := ⟨fun a => h.wellFounded.transGen.irrefl.irrefl a.1⟩
  have wf : WellFounded above := Finite.wellFounded_of_trans_of_irrefl above
  have hkey : ∀ {c n}, nodes.get? c = some n → c ∈ nodes.keys := fun hn =>
    KeyMap.contains_iff_mem_keys.mp (by rw [KeyMap.contains, hn]; rfl)
  -- on the keys alone, of which there are finitely many
  have main : ∀ k : {k // k ∈ nodes.keys}, P k.1 := by
    intro k
    induction k using wf.induction with
    | h k ih =>
        cases hn : nodes.get? k.1 with
        | none => exact absurd k.2 (KeyMap.get?_eq_none_iff.mp hn)
        | some n =>
            refine step k.1 n hn fun p hp => ?_
            obtain ⟨m, hm, hc⟩ := h.parent k.1 n p hn hp
            refine ih ⟨p, hkey hm⟩ (.single ?_)
            rwa [ChildOf, childrenAt_of_get? hm]
  exact fun c n hn => main ⟨c, hkey hn⟩

/-- A node is listed by its parent, once, and by no other node. -/
theorem count_childIds {c : String} {n : Node} (hn : nodes.get? c = some n) {p : String}
    {m : Node} (hm : nodes.get? p = some m) :
    m.childIds.count c = if n.parent = some p then 1 else 0 := by
  split
  · rename_i hp
    obtain ⟨m', hm', hc⟩ := h.parent c n p hn hp
    cases hm.symm.trans hm'
    have hsub : m.childIds.Sublist (references nodes roots) := by
      obtain ⟨l, r, hl⟩ := List.append_of_mem (KeyMap.get?_eq_some_iff.mp hm)
      rw [references_eq, linksOf, hl, List.flatMap_append, List.flatMap_cons]
      exact ((List.sublist_append_left _ _).trans (List.sublist_append_right _ _)).trans
        (List.sublist_append_right _ _)
    exact List.count_eq_one_of_mem (h.nodup.sublist hsub) hc
  · rename_i hp
    refine List.count_eq_zero_of_not_mem fun hc => hp ?_
    obtain ⟨n', hn', hp'⟩ := h.child p m hm c hc
    cases hn.symm.trans hn'
    exact hp'

/-- Among entries of the store, a node is listed as often as its parent is there. -/
theorem count_linksOf {c : String} {n : Node} (hn : nodes.get? c = some n)
    {l : List (String × Node)} (hl : l ⊆ nodes.entries) :
    (linksOf l).count c = (l.map Prod.fst).countP fun p => n.parent = some p := by
  induction l with
  | nil => rfl
  | cons e l ih =>
      rw [List.cons_subset] at hl
      have hm : nodes.get? e.1 = some e.2 := KeyMap.get?_eq_some_iff.mpr hl.1
      have hcons : linksOf (e :: l) = e.2.childIds ++ linksOf l := List.flatMap_cons
      rw [hcons, List.count_append, ih hl.2, h.count_childIds hn hm, List.map_cons,
        List.countP_cons, Nat.add_comm]
      simp only [decide_eq_true_eq]

/-- A node is a root once if it has no parent, and else not at all. -/
theorem count_roots {c : String} {n : Node} (hn : nodes.get? c = some n) :
    roots.count c = if n.parent = none then 1 else 0 := by
  split
  · rename_i hp
    have hlisted := h.listed c (KeyMap.contains_iff_mem_keys.mp (by rw [KeyMap.contains, hn]; rfl))
    rw [references_eq, List.mem_append] at hlisted
    have hnodup : roots.Nodup := by
      have := h.nodup
      rw [references_eq] at this
      exact (List.nodup_append.mp this).1
    refine List.count_eq_one_of_mem hnodup (hlisted.resolve_right fun hc => ?_)
    have hcount := h.count_linksOf hn (List.Subset.refl nodes.entries)
    rw [hp, List.countP_eq_zero.mpr (by simp)] at hcount
    exact List.count_eq_zero.mp hcount hc
  · rename_i hp
    refine List.count_eq_zero_of_not_mem fun hc => hp ?_
    obtain ⟨m, hm, hm'⟩ := h.root c hc
    cases hn.symm.trans hm
    exact hm'

/-- Every node is in the grove, once. -/
theorem count_ids {ts : List Branch} (hr : ts.map Branch.id = roots)
    (hs : entries none ts ⊆ nodes.entries) :
    ∀ c n, nodes.get? c = some n → (ids ts).count c = 1 := by
  refine h.induction_up fun c n hn ih => ?_
  rw [(references_perm none ts).count_eq, List.count_append, hr, h.count_roots hn,
    h.count_linksOf hn hs, keys_entries]
  cases hp : n.parent with
  | none => simp
  | some p =>
      -- no root, so it is grown as often as its parent
      have : (ids ts).countP (fun q => some p = some q) = (ids ts).count p := by
        rw [List.count]
        refine List.countP_congr fun q _ => ?_
        rw [decide_eq_true_eq, beq_iff_eq, Option.some_inj]
        exact eq_comm
      rw [if_neg (Option.some_ne_none p), this, ih p hp]

include plain

/-- **Links that agree are those of a grove.** -/
theorem exists_stored : ∃ ts, Stored ts nodes roots := by
  obtain ⟨ts, hr, hs⟩ := h.exists_grove plain
  have hcount := h.count_ids hr hs
  have hkey : ∀ {e : String × Node}, e ∈ nodes.entries → (ids ts).count e.1 = 1 := fun he =>
    hcount _ _ (KeyMap.get?_eq_some_iff.mpr he)
  have hids : ∀ c ∈ ids ts, (ids ts).count c = 1 := by
    intro c hc
    rw [← keys_entries none] at hc
    obtain ⟨e, he, rfl⟩ := List.mem_map.mp hc
    exact hkey (hs he)
  have hnodup : (entries none ts).Nodup := by
    have : ((entries none ts).map Prod.fst).Nodup := by
      rw [keys_entries]
      exact List.nodup_iff_count_eq_one.mpr hids
    exact this.of_map Prod.fst
  refine ⟨ts, hr.symm, (List.perm_ext_iff_of_nodup nodes.nodup_keys.of_map hnodup).mpr
    fun e => ⟨fun he => ?_, fun he => hs he⟩⟩
  have hmem : e.1 ∈ ids ts := List.count_pos_iff.mp (by rw [hkey he]; exact Nat.one_pos)
  rw [← keys_entries none] at hmem
  obtain ⟨d, hd, hde⟩ := List.mem_map.mp hmem
  have : d = e := List.inj_on_of_nodup_map nodes.nodup_keys (hs hd) he hde
  exact this ▸ hd

end Linked

end Rulebook.Forest
