import Rulebook.Rule.Basic

/-!
# Rulebook — Proofs — Rule — Cancel

Taking two negations away from in front of a rule somewhere in a tree (`Rule.cancelAt`).  A
diagnostic record stays where it is then, unless it belongs to one of the negations or to a rule
below them, whose paths lose two positions (`Rule.cancelAt_annotate`).
-/

namespace Rulebook.Rule

variable {r q r' : Rule} {path : List Nat} {i : Nat}

/-- The tree with the rule there, which is negated twice, in place of its negations. -/
def cancelAt : List Nat → Rule → Option Rule
  | [], .junction (.connective .not) [.junction (.connective .not) [r] _] _ => some r
  | [], _ => none
  | i :: path, .scope s body m =>
    if i = 0 then (cancelAt path body).map fun b => .scope s b m else none
  | i :: path, .junction j members m =>
    (updateAt (cancelAt path) members i).map fun ms => .junction j ms m
  | _ :: _, .atom _ _ => none

theorem cancelAt_nil (r : Rule) : cancelAt [] (.group .not [.group .not [r]]) = some r := rfl

theorem cancelAt_scope (h : cancelAt path r = some q) (s : Scope) (note : Option Metadata) :
    cancelAt (0 :: path) (.scope s r note) = some (.scope s q note) := by
  rw [cancelAt, if_pos rfl, h]
  rfl

theorem cancelAt_junction {rs qs : List Rule} (h : updateAt (cancelAt path) rs i = some qs)
    (j : Junction) (note : Option Metadata) :
    cancelAt (i :: path) (.junction j rs note) = some (.junction j qs note) := by
  rw [cancelAt, h]
  rfl

/-! ### Records -/

/-- Updates of a list at two places, or at one place if they can be made in either order there, can
be made in either order. -/
theorem updateAt_comm {α : Type} {f g : α → Option α} {as bs cs : List α} {i k : Nat}
    (hf : updateAt f as i = some bs) (hg : updateAt g as k = some cs)
    (h : i = k → ∀ a b c, f a = some b → g a = some c → ∃ d, g b = some d ∧ f c = some d) :
    ∃ ds, updateAt g bs k = some ds ∧ updateAt f cs i = some ds := by
  induction as generalizing bs cs i k with
  | nil => cases hf
  | cons a as ih =>
      cases i with
      | zero =>
          obtain ⟨b, hb, rfl⟩ := Option.map_eq_some_iff.mp hf
          cases k with
          | zero =>
              obtain ⟨c, hc, rfl⟩ := Option.map_eq_some_iff.mp hg
              obtain ⟨d, hd, hd'⟩ := h rfl a b c hb hc
              exact ⟨d :: as, by rw [updateAt, hd]; rfl, by rw [updateAt, hd']; rfl⟩
          | succ k =>
              obtain ⟨cs, hc, rfl⟩ := Option.map_eq_some_iff.mp hg
              exact ⟨b :: cs, by rw [updateAt, hc]; rfl, by rw [updateAt, hb]; rfl⟩
      | succ i =>
          obtain ⟨bs, hb, rfl⟩ := Option.map_eq_some_iff.mp hf
          cases k with
          | zero =>
              obtain ⟨c, hc, rfl⟩ := Option.map_eq_some_iff.mp hg
              exact ⟨c :: bs, by rw [updateAt, hc]; rfl, by rw [updateAt, hb]; rfl⟩
          | succ k =>
              obtain ⟨cs, hc, rfl⟩ := Option.map_eq_some_iff.mp hg
              obtain ⟨ds, hd, hd'⟩ := ih hb hc fun e => h (congrArg Nat.succ e)
              exact ⟨a :: ds, by rw [updateAt, hd]; rfl, by rw [updateAt, hd']; rfl⟩

/-- **Records stay on their rules** when two negations are taken away, except for those of the
negations and of what is below them. -/
theorem cancelAt_annotate {n : Option Metadata} {p : List Nat} (hp : ¬ path <+: p)
    (hc : r.cancelAt path = some q) (ha : r.annotate n p = some r') :
    ∃ q', q.annotate n p = some q' ∧ r'.cancelAt path = some q' := by
  induction path generalizing p r q r' with
  | nil => exact absurd List.nil_prefix hp
  | cons i path ih =>
      -- what holds one level down, if the path goes the same way
      have below {k : Nat} {p : List Nat} (hp : ¬ i :: path <+: k :: p) (e : i = k) (a b c : Rule)
          (hf : a.cancelAt path = some b) (hg : a.annotate n p = some c) :
          ∃ d, b.annotate n p = some d ∧ c.cancelAt path = some d :=
        ih (fun h => hp (e ▸ List.cons_prefix_cons.mpr ⟨rfl, h⟩)) hf hg
      cases r with
      | atom a note => cases hc
      | scope s body note =>
          rw [cancelAt] at hc
          split at hc
          · rename_i zero
            subst zero
            obtain ⟨b, hb, rfl⟩ := Option.map_eq_some_iff.mp hc
            cases p with
            | nil =>
                cases ha
                exact ⟨_, rfl, cancelAt_scope hb s n⟩
            | cons k p =>
                rw [annotate] at ha
                split at ha
                · rename_i zero
                  subst zero
                  obtain ⟨c, hc, rfl⟩ := Option.map_eq_some_iff.mp ha
                  obtain ⟨d, hd, hd'⟩ := below hp rfl body b c hb hc
                  exact ⟨.scope s d note, by rw [annotate, if_pos rfl, hd]; rfl,
                    cancelAt_scope hd' s note⟩
                · cases ha
          · cases hc
      | junction j members note =>
          obtain ⟨bs, hb, rfl⟩ := Option.map_eq_some_iff.mp hc
          cases p with
          | nil =>
              cases ha
              exact ⟨_, rfl, cancelAt_junction hb j n⟩
          | cons k p =>
              obtain ⟨cs, hc, rfl⟩ := Option.map_eq_some_iff.mp ha
              obtain ⟨ds, hd, hd'⟩ := updateAt_comm hb hc (below hp)
              exact ⟨.junction j ds note, by rw [annotate, hd]; rfl, cancelAt_junction hd' j note⟩

end Rulebook.Rule
