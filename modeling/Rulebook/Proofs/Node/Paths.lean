import Mathlib.Logic.ExistsUnique
import Rulebook.Proofs.Node.Regrow

/-!
# Rulebook — Proofs — Node — Paths

What it means that no problem is found in a store with a list of roots.  A path names a root by its
place among the roots, and from there on each node by its place among its siblings.

* `Stored.existsUnique_path`: one path leads to each vertex of a grove.
* `structureProblems_decides`: no problem is found exactly if the store and its roots are embedded
  trees with distinct ids, taken apart; and then one path leads to each node.
-/

namespace Rulebook

namespace Forest

/-- The id to which a path leads from a list of ids. -/
def follow (nodes : Forest) : List String → List Nat → Option String
  | _, [] => none
  | ids, [i] => ids[i]?
  | ids, i :: j :: path => ids[i]?.bind fun id => follow nodes (childrenAt nodes id) (j :: path)

theorem follow_cons_succ (nodes : Forest) (id : String) (ids : List String) (i : Nat)
    (path : List Nat) :
    follow nodes (id :: ids) ((i + 1) :: path) = follow nodes ids (i :: path) := by
  cases path <;> rfl

end Forest

namespace Stored

open Forest Grove

variable {nodes : Forest} {roots : List String} {ts us : List Branch} {a : Option String}

/-- A path leads to the first tree, below it, or to one of the trees behind it. -/
theorem follow_cons_iff (h : Stored ts nodes roots) {t : Branch}
    (ht : ⟨a, t⟩ ∈ places none ts) {p : String} {path : List Nat} :
    follow nodes ((t :: us).map Branch.id) path = some p ↔
      (path = [0] ∧ t.id = p) ∨
      (∃ rest, path = 0 :: rest ∧ follow nodes (t.children.map Branch.id) rest = some p) ∨
      ∃ i rest, path = (i + 1) :: rest ∧
        follow nodes (us.map Branch.id) (i :: rest) = some p := by
  rw [List.map_cons]
  cases path with
  | nil => simp [follow]
  | cons i rest =>
      cases i with
      | zero =>
          cases rest with
          | nil => simp [follow]
          | cons j rest => simp [follow, h.childrenAt_eq ht]
      | succ i =>
          rw [follow_cons_succ]
          simp

section

variable (h : Stored ts nodes roots)
include h

/-- A path in a part of the grove leads to an id of that part. -/
theorem mem_ids_of_follow (hu : places a us ⊆ places none ts) {p : String} {path : List Nat}
    (hp : follow nodes (us.map Branch.id) path = some p) : p ∈ ids us := by
  induction us using induction generalizing a path with
  | nil => cases path with
    | nil => cases hp
    | cons i rest => cases rest <;> simp [follow] at hp
  | cons v cs us ihc iht =>
      rw [places_cons, List.cons_subset, List.append_subset] at hu
      obtain ⟨hv, hc, ht⟩ := hu
      rw [ids_mk, List.mem_cons, List.mem_append]
      rcases (h.follow_cons_iff hv).mp hp with ⟨-, hid⟩ | ⟨rest, -, hrest⟩ | ⟨i, rest, -, hrest⟩
      · exact .inl hid.symm
      · exact .inr (.inl (ihc hc hrest))
      · exact .inr (.inr (iht ht hrest))

/-- A path leads to every id of a part of the grove. -/
theorem exists_path (hu : places a us ⊆ places none ts) {p : String} (hp : p ∈ ids us) :
    ∃ path, follow nodes (us.map Branch.id) path = some p := by
  induction us using induction generalizing a with
  | nil => exact absurd hp List.not_mem_nil
  | cons v cs us ihc iht =>
      rw [places_cons, List.cons_subset, List.append_subset] at hu
      obtain ⟨hv, hc, ht⟩ := hu
      rw [ids_mk, List.mem_cons, List.mem_append] at hp
      rcases hp with rfl | hp | hp
      · exact ⟨[0], rfl⟩
      · obtain ⟨path, hpath⟩ := ihc hc hp
        exact ⟨0 :: path, (h.follow_cons_iff hv).mpr (.inr (.inl ⟨path, rfl, hpath⟩))⟩
      · obtain ⟨path, hpath⟩ := iht ht hp
        cases path with
        | nil => cases hpath
        | cons i rest =>
            exact ⟨(i + 1) :: rest,
              (h.follow_cons_iff hv).mpr (.inr (.inr ⟨i, rest, rfl, hpath⟩))⟩

/-- Only one path leads to an id of a part of the grove in which none is repeated. -/
theorem path_unique (hu : places a us ⊆ places none ts) (nodup : (ids us).Nodup) {p : String}
    {path path' : List Nat} (hp : follow nodes (us.map Branch.id) path = some p)
    (hp' : follow nodes (us.map Branch.id) path' = some p) : path = path' := by
  induction us using induction generalizing a path path' with
  | nil =>
      have := h.mem_ids_of_follow hu hp
      exact absurd this List.not_mem_nil
  | cons v cs us ihc iht =>
      rw [places_cons, List.cons_subset, List.append_subset] at hu
      obtain ⟨hv, hc, ht⟩ := hu
      obtain ⟨hvc, hvt, hnc, hnt, hdisj⟩ := nodup_mk.mp nodup
      have hcs : v.id = p → p ∉ ids cs := fun e => e ▸ hvc
      have hus : v.id = p → p ∉ ids us := fun e => e ▸ hvt
      -- the vertex that a path leads to says in which part of the grove it ends
      rcases (h.follow_cons_iff hv).mp hp with ⟨rfl, hid⟩ | ⟨r, rfl, hr⟩ | ⟨i, r, rfl, hr⟩ <;>
        rcases (h.follow_cons_iff hv).mp hp' with ⟨rfl, hid'⟩ | ⟨r', rfl, hr'⟩ | ⟨i', r', rfl, hr'⟩
      · rfl
      · exact absurd (h.mem_ids_of_follow hc hr') (hcs hid)
      · exact absurd (h.mem_ids_of_follow ht hr') (hus hid)
      · exact absurd (h.mem_ids_of_follow hc hr) (hcs hid')
      · rw [ihc hc hnc hr hr']
      · exact absurd (h.mem_ids_of_follow ht hr') (hdisj p (h.mem_ids_of_follow hc hr))
      · exact absurd (h.mem_ids_of_follow ht hr) (hus hid')
      · exact absurd (h.mem_ids_of_follow ht hr) (hdisj p (h.mem_ids_of_follow hc hr'))
      · have := iht ht hnt hr hr'
        rw [List.cons.injEq] at this
        rw [this.1, this.2]

/-- **One path leads to each vertex of a grove.** -/
theorem existsUnique_path {p : String} (hp : nodes.contains p = true) :
    ∃! path, follow nodes roots path = some p := by
  have hsub : places none ts ⊆ places none ts := List.Subset.refl _
  obtain ⟨path, hpath⟩ := h.exists_path hsub (h.contains_iff.mp hp)
  rw [h.roots_eq]
  exact ⟨path, hpath, fun path' hpath' => h.path_unique hsub h.nodup hpath' hpath⟩

end

end Stored

namespace Forest

open Grove

/-- **No problem is found exactly if the store and its roots are embedded trees with distinct ids,
taken apart; and then one path leads to each node.** -/
theorem structureProblems_decides (nodes : Forest) (roots : List String)
    (key : ∀ e ∈ nodes.entries, e.2.id = e.1)
    (ref : ∀ e ∈ nodes.entries, ∀ c ∈ e.2.children, ∃ id, c = .ref id) :
    (structureProblems nodes roots = [] ↔
      ∃ trees : List Node, (∀ t ∈ trees, t.Embedded) ∧
        (ids (trees.map Node.branch)).Nodup ∧ flatten trees = (nodes, roots)) ∧
    (structureProblems nodes roots = [] →
      ∀ id, nodes.contains id = true → ∃! path, follow nodes roots path = some id) := by
  have hstored : structureProblems nodes roots = [] → ∃ ts, Stored ts nodes roots := fun h =>
    (structureProblems_eq_nil_iff.mp h).exists_stored ⟨key, ref⟩
  refine ⟨⟨fun h => ?_, ?_⟩, fun h id hid => ?_⟩
  · obtain ⟨ts, hs⟩ := hstored h
    have hbranch : (ts.map Branch.embed).map Node.branch = ts := by
      rw [List.map_map]
      exact (List.map_congr_left fun t _ => Branch.branch_embed t).trans (List.map_id' ts)
    have hembedded : ∀ t ∈ ts.map Branch.embed, t.Embedded := by
      intro n hn
      obtain ⟨t, -, rfl⟩ := List.mem_map.mp hn
      exact Branch.embedded_embed t
    exact ⟨ts.map Branch.embed, hembedded, by rw [hbranch]; exact hs.nodup,
      flatten_eq hembedded (by rw [hbranch]; exact hs)⟩
  · rintro ⟨trees, hembedded, hnodup, hflat⟩
    have := stored_flatten hembedded hnodup
    rw [hflat] at this
    exact this.structureProblems_eq_nil
  · obtain ⟨ts, hs⟩ := hstored h
    exact hs.existsUnique_path hid

/-- A group with one call below it. -/
def pairStore : Forest :=
  ⟨[("call", ⟨"call", none, none, [], some "group", .call (some "f") []⟩),
    ("group", ⟨"group", none, none, [.ref "call"], none, .group .and⟩)], by decide⟩

/-- A group of a single call has no problems, is one tree, and one path leads to the call. -/
theorem structureProblems_decides_pair : structureProblems pairStore ["group"] = [] ∧
    (∃ trees : List Node, (∀ t ∈ trees, t.Embedded) ∧
      (ids (trees.map Node.branch)).Nodup ∧ flatten trees = (pairStore, ["group"])) ∧
    ∃! path, follow pairStore ["group"] path = some "call" := by
  have hnone : structureProblems pairStore ["group"] = [] := by decide
  have h := structureProblems_decides pairStore ["group"] (by simp [pairStore])
    (by simp [pairStore])
  exact ⟨hnone, h.1.mp hnone, h.2 hnone "call" (by decide)⟩

end Forest

end Rulebook
