import Rulebook.Rule.Basic

/-!
# Rulebook — Proofs — Rule — Tree

The rules of a tree and its levels, by the rules directly below the first one.

* `mem_preorder_trans`: the rules of a rule of the tree are rules of the tree.
* `depth_lt_of_mem_children`: a rule has more levels than those below it.
-/

namespace Rulebook.Rule

/-! ### The rules of a tree -/

/-- A rule comes first in its own pre-order. -/
theorem preorder_eq (r : Rule) : r.preorder = r :: preorderAll r.children := by
  cases r <;> simp [preorder, preorderAll, children]

theorem preorder_subset_preorderAll {r : Rule} {rs : List Rule} (h : r ∈ rs) :
    ∀ s ∈ r.preorder, s ∈ preorderAll rs := by
  induction rs with
  | nil => cases h
  | cons q rs ih =>
      intro s hs
      rw [preorderAll]
      rcases List.mem_cons.mp h with rfl | h
      · exact List.mem_append_left _ hs
      · exact List.mem_append_right _ (ih h s hs)

theorem exists_of_mem_preorderAll {rs : List Rule} {s : Rule} (h : s ∈ preorderAll rs) :
    ∃ r ∈ rs, s ∈ r.preorder := by
  induction rs with
  | nil => cases h
  | cons r rs ih =>
      rw [preorderAll] at h
      rcases List.mem_append.mp h with h | h
      · exact ⟨r, List.mem_cons_self, h⟩
      · obtain ⟨q, hq, hs⟩ := ih h
        exact ⟨q, List.mem_cons_of_mem r hq, hs⟩

theorem mem_preorder_self (r : Rule) : r ∈ r.preorder := by
  rw [preorder_eq]
  exact List.mem_cons_self

/-- A property of all rules in a tree is one of the top and of all rules below. -/
theorem forall_mem_preorder_iff {p : Rule → Prop} {r : Rule} :
    (∀ q ∈ r.preorder, p q) ↔ p r ∧ ∀ c ∈ r.children, ∀ q ∈ c.preorder, p q := by
  rw [preorder_eq, List.forall_mem_cons]
  refine and_congr_right fun _ => ⟨fun h c hc q hq => ?_, fun h q hq => ?_⟩
  · exact h q (preorder_subset_preorderAll hc q hq)
  · obtain ⟨c, hc, hq⟩ := exists_of_mem_preorderAll hq
    exact h c hc q hq

theorem preorderAll_eq_flatMap (rs : List Rule) : preorderAll rs = rs.flatMap preorder := by
  induction rs with
  | nil => rfl
  | cons r rs ih => rw [preorderAll, ih, List.flatMap_cons]

mutual

/-- The rules of a tree without records are those of the tree, without theirs. -/
theorem preorder_bare : (r : Rule) → r.bare.preorder = r.preorder.map bare
  | .atom _ _ => rfl
  | .scope _ body _ => congrArg (_ :: ·) (preorder_bare body)
  | .junction _ members _ => congrArg (_ :: ·) (preorderAll_bareAll members)

theorem preorderAll_bareAll : (rs : List Rule) →
    preorderAll (bareAll rs) = (preorderAll rs).map bare
  | [] => rfl
  | r :: rs => by
      rw [bareAll, preorderAll, preorderAll, List.map_append, preorder_bare r, preorderAll_bareAll rs]

end

/-- What does not depend on records is the same for rules that differ in their records. -/
theorem elim_bare {β : Type} {f : Rule → β} {b : β} {o q : Option Rule} (hf : ∀ r, f r.bare = f r)
    (h : q.map bare = o.map bare) : q.elim b f = o.elim b f := by
  cases o <;> cases q <;> simp only [Option.map_none, Option.map_some, reduceCtorEq] at h
  · rfl
  · rw [Option.some.injEq] at h
    rw [Option.elim, Option.elim, ← hf, h, hf]

/-! ### Levels -/

/-- A rule and those below it are counted. -/
theorem count_eq (r : Rule) : r.count = 1 + countAll r.children := by
  cases r <;> simp [count, countAll, children]

/-- A rule is one level deeper than those below it. -/
theorem depth_eq (r : Rule) : r.depth = 1 + depthAll r.children := by
  cases r <;> simp [depth, depthAll, children]

theorem depth_pos (r : Rule) : 0 < r.depth := by
  rw [depth_eq]
  omega

/-- Rules have at most so many levels exactly if each has. -/
theorem depthAll_le_iff {rs : List Rule} {n : Nat} :
    depthAll rs ≤ n ↔ ∀ r ∈ rs, r.depth ≤ n := by
  induction rs with
  | nil => simp [depthAll]
  | cons r rs ih => rw [depthAll, Nat.max_le, ih, List.forall_mem_cons]

/-- A rule below another has fewer levels. -/
theorem depth_lt_of_mem_children {r c : Rule} (h : c ∈ r.children) : c.depth < r.depth := by
  have := depthAll_le_iff.mp (Nat.le_refl (depthAll r.children)) c h
  rw [r.depth_eq]
  omega

/-! ### Rules below rules -/

/-- **What holds of a rule as soon as it holds of those below it holds of every rule.** -/
theorem induction_children {p : Rule → Prop} (step : ∀ r : Rule, (∀ c ∈ r.children, p c) → p r)
    (r : Rule) : p r := by
  induction h : r.depth using Nat.strongRecOn generalizing r with
  | ind n ih => exact step r fun c hc => ih c.depth (h ▸ depth_lt_of_mem_children hc) c rfl

/-- The rules of a rule of the tree are rules of the tree. -/
theorem mem_preorder_trans {r s t : Rule} (hs : s ∈ r.preorder) (ht : t ∈ s.preorder) :
    t ∈ r.preorder := by
  induction r using induction_children with
  | step r ih =>
      rw [preorder_eq] at hs ⊢
      rcases List.mem_cons.mp hs with rfl | hs
      · rwa [← preorder_eq]
      · obtain ⟨c, hc, hs⟩ := exists_of_mem_preorderAll hs
        exact List.mem_cons_of_mem r (preorder_subset_preorderAll hc t (ih c hc hs))

end Rulebook.Rule
