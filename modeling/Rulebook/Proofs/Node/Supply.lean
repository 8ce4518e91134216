import Mathlib.Data.List.Perm.Subperm
import Rulebook.Editor.Transfer
import Rulebook.Proofs.Decimal.Digits
import Rulebook.Proofs.Node.Flatten

/-!
# Rulebook — Proofs — Node — Supply

New ids.  A supply draws ids of increasing numbers, none of which is taken, so the nodes drawn for
rules have distinct ids that nothing else has.

That drawn ids are distinct and not taken is what is assumed of random identifiers, and `Draws` is
this assumption as it is used: the editor's invariants and the trees that are read go by it, and not
by the numbers.

* `idOf_injective`: numbers are told apart by their ids.
* `draws_treesOf`: the trees drawn for rules are embedded, and their ids are new and distinct.
-/

namespace Rulebook.IdSupply

open Decimal

/-- Leading zeros do not change a number's value. -/
theorem valueOf_replicate_append (k : Nat) (ds : List Char) :
    valueOf (List.replicate k '0' ++ ds) = valueOf ds := by
  induction k with
  | zero => rfl
  | succ k ih => exact ih

/-- **Numbers are told apart by their ids.** -/
theorem idOf_injective {m n : Nat} (h : idOf m = idOf n) : m = n := by
  have hlist := String.ofList_injective h
  have hvalue := congrArg valueOf (List.tail_eq_of_cons_eq hlist)
  rwa [valueOf_replicate_append, valueOf_replicate_append, valueOf_digitsOf,
    valueOf_digitsOf] at hvalue

/-- The first free number does not stand before the number at which the search begins. -/
theorem le_firstFree (taken : List String) (fuel n : Nat) : n ≤ firstFree taken fuel n := by
  induction fuel generalizing n with
  | zero => exact Nat.le_refl n
  | succ fuel ih =>
      rw [firstFree]
      split
      · exact Nat.le_of_succ_le (ih (n + 1))
      · exact Nat.le_refl n

/-- If even the last number is taken, so are all before it. -/
theorem mem_taken_of_firstFree {taken : List String} {fuel n : Nat}
    (h : idOf (firstFree taken fuel n) ∈ taken) : ∀ i ≤ fuel, idOf (n + i) ∈ taken := by
  induction fuel generalizing n with
  | zero =>
      intro i hi
      rw [Nat.le_zero.mp hi]
      exact h
  | succ fuel ih =>
      rw [firstFree] at h
      split at h
      · rename_i hn
        intro i hi
        cases i with
        | zero => exact List.contains_iff_mem.mp hn
        | succ i =>
            have := ih h i (Nat.le_of_succ_le_succ hi)
            rwa [Nat.add_assoc, Nat.add_comm 1 i] at this
      · rename_i hn
        exact absurd (List.contains_iff_mem.mpr h) hn

/-- Among one number more than there are ids taken, one is free. -/
theorem idOf_firstFree_not_mem (taken : List String) (n : Nat) :
    idOf (firstFree taken taken.length n) ∉ taken := by
  intro h
  -- all the numbers tried would be taken, and they are more than there are ids taken
  have hall := mem_taken_of_firstFree h
  have hnodup : ((List.range (taken.length + 1)).map fun i => idOf (n + i)).Nodup :=
    List.nodup_range.map fun i j hij => Nat.add_left_cancel (idOf_injective hij)
  have hsub : ((List.range (taken.length + 1)).map fun i => idOf (n + i)) ⊆ taken := by
    intro id hid
    obtain ⟨i, hi, rfl⟩ := List.mem_map.mp hid
    exact hall i (Nat.le_of_lt_succ (List.mem_range.mp hi))
  have := (List.subperm_of_subset hnodup hsub).length_le
  rw [List.length_map, List.length_range] at this
  exact Nat.not_succ_le_self _ this

/-- Ids of increasing numbers are drawn, none of which is taken. -/
structure Draws (s : IdSupply) (ids : List String) (t : IdSupply) : Prop where
  taken : t.taken = s.taken
  next_le : s.next ≤ t.next
  numbers : ∃ ns : List Nat, ids = ns.map idOf ∧ ns.Pairwise (· < ·) ∧
    ∀ n ∈ ns, s.next ≤ n ∧ n < t.next
  free : ∀ id ∈ ids, id ∉ s.taken

namespace Draws

variable {s t u : IdSupply} {l r : List String}

theorem nil (s : IdSupply) : Draws s [] s :=
  ⟨rfl, Nat.le_refl _, ⟨[], rfl, .nil, fun _ hn => absurd hn List.not_mem_nil⟩,
    fun _ hid => absurd hid List.not_mem_nil⟩

/-- Drawing one id is drawing the next number that is free. -/
theorem one (s : IdSupply) : Draws s [s.draw.1] s.draw.2 := by
  have hle := le_firstFree s.taken s.taken.length s.next
  refine ⟨rfl, Nat.le_succ_of_le hle, ⟨[firstFree s.taken s.taken.length s.next], rfl,
    List.pairwise_singleton _ _, fun n hn => ?_⟩, fun id hid => ?_⟩
  · rw [List.mem_singleton.mp hn]
    exact ⟨hle, Nat.lt_succ_self _⟩
  · rw [List.mem_singleton.mp hid]
    exact idOf_firstFree_not_mem s.taken s.next

/-- Draws one after the other are a draw. -/
theorem append (h : Draws s l t) (h' : Draws t r u) : Draws s (l ++ r) u := by
  obtain ⟨ms, rfl, hms, hm⟩ := h.numbers
  obtain ⟨ns, rfl, hns, hn⟩ := h'.numbers
  refine ⟨h'.taken.trans h.taken, Nat.le_trans h.next_le h'.next_le,
    ⟨ms ++ ns, List.map_append.symm, List.pairwise_append.mpr ⟨hms, hns, fun m hmm n hnn =>
      Nat.lt_of_lt_of_le (hm m hmm).2 (hn n hnn).1⟩, fun n hnn => ?_⟩, fun id hid => ?_⟩
  · rcases List.mem_append.mp hnn with hnn | hnn
    · exact ⟨(hm n hnn).1, Nat.lt_of_lt_of_le (hm n hnn).2 h'.next_le⟩
    · exact ⟨Nat.le_trans h.next_le (hn n hnn).1, (hn n hnn).2⟩
  · rcases List.mem_append.mp hid with hid | hid
    · exact h.free id hid
    · exact h.taken ▸ h'.free id hid

/-- Ids that are drawn are distinct. -/
theorem nodup (h : Draws s l t) : l.Nodup := by
  obtain ⟨ns, rfl, hns, -⟩ := h.numbers
  have : ns.Nodup := hns.imp fun hlt => Nat.ne_of_lt hlt
  exact this.map fun _ _ => idOf_injective

end Draws

end Rulebook.IdSupply

namespace Rulebook

open Grove IdSupply

namespace Rule

mutual

/-- The node tree of a rule is embedded, and takes new ids. -/
theorem draws_drawNodes (parent : Option String) (s : IdSupply) : (r : Rule) →
    (drawNodes parent s r).1.Embedded ∧
      Draws s (ids [(drawNodes parent s r).1.branch]) (drawNodes parent s r).2
  | .atom a note => ⟨trivial, .one s⟩
  | .scope sc body note => by
      obtain ⟨he, hd⟩ := draws_drawNodes (some s.draw.1) s.draw.2 body
      have hids : ids [(drawNodes parent s (.scope sc body note)).1.branch] =
          [s.draw.1] ++ ids [(drawNodes (some s.draw.1) s.draw.2 body).1.branch] :=
        ids_singleton _ _
      refine ⟨⟨he, trivial⟩, ?_⟩
      rw [hids]
      exact (Draws.one s).append hd
  | .junction j members note => by
      obtain ⟨he, hd⟩ := draws_drawEntries s.draw.1 s.draw.2 members
      have hids : ids [(drawNodes parent s (.junction j members note)).1.branch] =
          [s.draw.1] ++ ids (Node.branches (drawEntries s.draw.1 s.draw.2 members).1) :=
        ids_singleton _ _
      refine ⟨he, ?_⟩
      rw [hids]
      exact (Draws.one s).append hd

/-- The children for rules are embedded, and take new ids. -/
theorem draws_drawEntries (parent : String) (s : IdSupply) : (rs : List Rule) →
    Node.EmbeddedAll (drawEntries parent s rs).1 ∧
      Draws s (ids (Node.branches (drawEntries parent s rs).1)) (drawEntries parent s rs).2
  | [] => ⟨trivial, .nil s⟩
  | r :: rs => by
      obtain ⟨he, hd⟩ := draws_drawNodes (some parent) s r
      obtain ⟨hes, hds⟩ := draws_drawEntries parent (drawNodes (some parent) s r).2 rs
      refine ⟨⟨he, hes⟩, ?_⟩
      have := hd.append hds
      rwa [← ids_append] at this

end

theorem toNodeWith_eq_ok {r : Rule} {s t : IdSupply} {n : Node}
    (h : r.toNodeWith s = .ok (n, t)) : r.drawNodes none s = (n, t) := by
  rw [toNodeWith] at h
  cases hc : r.checkDrawable with
  | error e => rw [hc] at h; cases h
  | ok u => rw [hc] at h; exact Except.ok.inj h

end Rule

namespace Transfer

/-- A tree is drawn for the first rule, and with the ids that are left those for the others. -/
theorem exists_of_treesOf_cons {r : Rule} {rs : List Rule} {s t : IdSupply} {trees : List Node}
    (h : treesOf s (r :: rs) = .ok (trees, t)) : ∃ tree u rest, trees = tree :: rest ∧
      r.toNodeWith s = .ok (tree, u) ∧ treesOf u rs = .ok (rest, t) := by
  rw [treesOf] at h
  cases hn : r.toNodeWith s with
  | error e => rw [hn] at h; cases h
  | ok p =>
      obtain ⟨tree, u⟩ := p
      rw [hn] at h
      simp only [bind, Except.bind] at h
      cases hrest : treesOf u rs with
      | error e => rw [hrest] at h; cases h
      | ok q =>
          obtain ⟨rest, v⟩ := q
          rw [hrest] at h
          cases h
          exact ⟨tree, u, rest, rfl, rfl, hrest⟩

/-- **The trees drawn for rules are embedded, and their ids are new and distinct.** -/
theorem draws_treesOf {rs : List Rule} {s t : IdSupply} {trees : List Node}
    (h : treesOf s rs = .ok (trees, t)) :
    (∀ n ∈ trees, n.Embedded) ∧ Draws s (ids (trees.map Node.branch)) t := by
  induction rs generalizing s trees with
  | nil =>
      cases h
      exact ⟨fun _ hn => absurd hn List.not_mem_nil, .nil _⟩
  | cons r rs ih =>
      obtain ⟨tree, u, rest, rfl, hn, hrest⟩ := exists_of_treesOf_cons h
      obtain ⟨he, hd⟩ := r.draws_drawNodes none s
      obtain ⟨hes, hds⟩ := ih hrest
      rw [Rule.toNodeWith_eq_ok hn] at he hd
      refine ⟨List.forall_mem_cons.mpr ⟨he, hes⟩, ?_⟩
      have := hd.append hds
      rwa [← ids_append] at this

end Transfer

end Rulebook
