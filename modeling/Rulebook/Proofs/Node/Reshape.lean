import Rulebook.Editor.Document
import Rulebook.Proofs.Node.Grove

/-!
# Rulebook — Proofs — Node — Reshape

Changes of a grove: at one vertex, in one list of siblings, and the cutting out of a tree.

* `entries_alter`: a change at one vertex leaves every other entry as it is.
* `prune_eq_below`: cutting a tree out filters the list of siblings that it stands in.
-/

namespace Rulebook.Grove

variable {a q r : Option String} {p : String} {t s : Branch} {ts us : List Branch}
  {g : Branch → Branch}

/-! ### Changes -/

mutual

/-- Changes the subtree at an id, in a tree. -/
def alterOf (p : String) (g : Branch → Branch) : Branch → Branch
  | ⟨v, cs⟩ => if v.id = p then g ⟨v, cs⟩ else ⟨v, alter p g cs⟩

/-- Changes the subtree at an id. -/
def alter (p : String) (g : Branch → Branch) : List Branch → List Branch
  | [] => []
  | t :: ts => alterOf p g t :: alter p g ts

end

mutual

/-- A tree without the subtree at an id, which is not its own. -/
def pruneOf (p : String) : Branch → Branch
  | ⟨v, cs⟩ => ⟨v, prune p cs⟩

/-- The grove without the vertex of an id and everything below it. -/
def prune (p : String) : List Branch → List Branch
  | [] => []
  | t :: ts => if t.id = p then prune p ts else pruneOf p t :: prune p ts

end

/-- Changes a list of siblings: the trees below a vertex, or the roots. -/
def below (above : Option String) (h : List Branch → List Branch) (ts : List Branch) :
    List Branch :=
  match above with
  | none => h ts
  | some p => alter p (fun t => ⟨t.vertex, h t.children⟩) ts

/-- The siblings other than that of an id. -/
def others (p : String) (ts : List Branch) : List Branch := ts.filter fun t => t.id ≠ p

/-- Puts a tree among siblings: at an index, or last if there is none or they are fewer. -/
def putIn (index : Option Nat) (t : Branch) (ts : List Branch) : List Branch :=
  match index with
  | none => ts ++ [t]
  | some i => ts.insertIdx (min i ts.length) t

/-- Puts a tree below a vertex, or among the roots. -/
def graft (above : Option String) (index : Option Nat) (t : Branch) (ts : List Branch) :
    List Branch :=
  below above (putIn index t) ts

@[simp] theorem alter_cons (p : String) (g : Branch → Branch) (v : Vertex)
    (cs ts : List Branch) :
    alter p g (⟨v, cs⟩ :: ts) =
      (if v.id = p then g ⟨v, cs⟩ else ⟨v, alter p g cs⟩) :: alter p g ts := rfl

@[simp] theorem prune_cons (p : String) (v : Vertex) (cs ts : List Branch) :
    prune p (⟨v, cs⟩ :: ts) =
      if v.id = p then prune p ts else ⟨v, prune p cs⟩ :: prune p ts := rfl

/-- Changing a vertex that is not there changes nothing. -/
theorem alter_eq_self (h : p ∉ ids ts) (g : Branch → Branch) : alter p g ts = ts := by
  induction ts using induction with
  | nil => rfl
  | cons v cs ts ihc iht =>
      simp only [ids_mk, List.mem_cons, List.mem_append, not_or] at h
      obtain ⟨hv, hc, ht⟩ := h
      rw [alter_cons, if_neg (Ne.symm hv), ihc hc, iht ht]

/-- Cutting out a tree that is not there changes nothing. -/
theorem prune_eq_self (h : p ∉ ids ts) : prune p ts = ts := by
  induction ts using induction with
  | nil => rfl
  | cons v cs ts ihc iht =>
      simp only [ids_mk, List.mem_cons, List.mem_append, not_or] at h
      obtain ⟨hv, hc, ht⟩ := h
      rw [prune_cons, if_neg (Ne.symm hv), ihc hc, iht ht]

/-- Only what becomes of the subtree itself matters. -/
theorem alter_congr {g' : Branch → Branch} (nodup : (ids ts).Nodup)
    (h : ⟨q, t⟩ ∈ places a ts) (hg : g t = g' t) : alter t.id g ts = alter t.id g' ts := by
  induction ts using induction generalizing a with
  | nil => rfl
  | cons v cs ts ihc iht =>
      obtain ⟨hvc, hvt, hnc, hnt, hdisj⟩ := nodup_mk.mp nodup
      rw [places_cons] at h
      rcases List.mem_cons.mp h with h | h
      · cases h
        rw [Branch.id_mk, alter_cons, alter_cons, if_pos rfl, if_pos rfl, hg, alter_eq_self hvt,
          alter_eq_self hvt]
      · rcases List.mem_append.mp h with h | h
        · have hmem := mem_ids h
          have hv : v.id ≠ t.id := fun e => hvc (e ▸ hmem)
          rw [alter_cons, alter_cons, if_neg hv, if_neg hv, ihc hnc h,
            alter_eq_self (hdisj _ hmem), alter_eq_self (hdisj _ hmem)]
        · have hmem := mem_ids h
          have hv : v.id ≠ t.id := fun e => hvt (e ▸ hmem)
          have hc : t.id ∉ ids cs := fun e => hdisj _ e hmem
          rw [alter_cons, alter_cons, if_neg hv, if_neg hv, iht hnt h, alter_eq_self hc,
            alter_eq_self hc]

theorem alter_self (p : String) (ts : List Branch) : alter p (fun t => t) ts = ts := by
  induction ts using induction with
  | nil => rfl
  | cons v cs ts ihc iht => rw [alter_cons, ihc, iht, ite_self]

/-- A change that keeps the vertex's id keeps the ids of the trees at the top. -/
theorem map_id_alter (hg : ∀ t, (g t).id = t.id) (p : String) (ts : List Branch) :
    (alter p g ts).map Branch.id = ts.map Branch.id := by
  induction ts with
  | nil => rfl
  | cons t ts ih =>
      obtain ⟨v, cs⟩ := t
      rw [alter_cons, List.map_cons, List.map_cons, ih]
      split
      · rw [hg]
      · rfl

/-- Two changes at one vertex are one change. -/
theorem alter_alter (hg : ∀ t, (g t).id = t.id) (p : String) (h : Branch → Branch)
    (ts : List Branch) : alter p h (alter p g ts) = alter p (fun t => h (g t)) ts := by
  induction ts using induction with
  | nil => rfl
  | cons v cs ts ihc iht =>
      rw [alter_cons, alter_cons, ← iht]
      split
      · rename_i hv
        have : (g ⟨v, cs⟩).id = p := (hg ⟨v, cs⟩).trans hv
        cases hd : g ⟨v, cs⟩ with
        | mk w ds =>
            rw [hd, Branch.id_mk] at this
            rw [alter_cons, if_pos this]
      · rename_i hv
        rw [alter_cons, if_neg hv, ihc]

/-- Two changes of one list of siblings are one change. -/
theorem below_below (above : Option String) (h k : List Branch → List Branch)
    (ts : List Branch) :
    below above h (below above k ts) = below above (fun us => h (k us)) ts := by
  cases above with
  | none => rfl
  | some p => exact alter_alter (g := fun t => ⟨t.vertex, k t.children⟩) (fun _ => rfl) p _ ts

theorem below_self (above : Option String) (ts : List Branch) :
    below above (fun us => us) ts = ts := by
  cases above with
  | none => rfl
  | some p =>
      have hself : (fun t : Branch => (⟨t.vertex, t.children⟩ : Branch)) = fun t => t := by
        funext t
        cases t
        rfl
      rw [below, hself, alter_self]

/-- A change of the siblings below a vertex keeps the ids of the trees at the top. -/
theorem map_id_below (p : String) (h : List Branch → List Branch) (ts : List Branch) :
    (below (some p) h ts).map Branch.id = ts.map Branch.id :=
  map_id_alter (g := fun t => ⟨t.vertex, h t.children⟩) (fun _ => rfl) p ts

/-! ### Entries -/

/-- **A change at one vertex leaves every other entry as it is.** -/
theorem entries_alter (nodup : (ids ts).Nodup) (h : ⟨q, t⟩ ∈ places a ts) :
    ∃ rest, (entries a ts).Perm (entries q [t] ++ rest) ∧
      ∀ g : Branch → Branch, (∀ s, (g s).id = s.id) →
        (entries a (alter t.id g ts)).Perm (entries q [g t] ++ rest) := by
  -- the entries as they are come from a change that changes nothing
  suffices hall : ∃ rest, ∀ g : Branch → Branch, (∀ s, (g s).id = s.id) →
      (entries a (alter t.id g ts)).Perm (entries q [g t] ++ rest) by
    obtain ⟨rest, hrest⟩ := hall
    have hself := hrest (fun s => s) fun _ => rfl
    rw [alter_self] at hself
    exact ⟨rest, hself, hrest⟩
  induction ts using induction generalizing a with
  | nil => exact absurd h List.not_mem_nil
  | cons v cs ts ihc iht =>
      obtain ⟨hvc, hvt, hnc, hnt, hdisj⟩ := nodup_mk.mp nodup
      rw [places_cons] at h
      rcases List.mem_cons.mp h with h | h
      · cases h
        refine ⟨entries q ts, fun g _ => ?_⟩
        rw [Branch.id_mk, alter_cons, if_pos rfl, alter_eq_self hvt, entries_cons_eq]
      · rcases List.mem_append.mp h with h | h
        · -- in a tree below: the vertex above keeps its entry
          have hmem := mem_ids h
          have hv : v.id ≠ t.id := fun e => hvc (e ▸ hmem)
          have ht : t.id ∉ ids ts := hdisj _ hmem
          obtain ⟨rest, hrest⟩ := ihc hnc h
          refine ⟨(v.id, Branch.node a ⟨v, cs⟩) :: (rest ++ entries a ts), fun g hg => ?_⟩
          have hnode : Branch.node a ⟨v, alter t.id g cs⟩ = Branch.node a ⟨v, cs⟩ := by
            have := congrArg (List.map Entry.ref) (map_id_alter hg t.id cs)
            simp only [List.map_map] at this
            simp only [Branch.node]
            exact congrArg (fun l => Node.mk v.id v.label v.note l a v.config) this
          rw [alter_cons, if_neg hv, alter_eq_self ht, entries_cons, hnode]
          refine ((((hrest g hg).append_right _).cons _).trans ?_)
          rw [List.append_assoc]
          exact List.perm_middle.symm
        · have hmem := mem_ids h
          have hv : v.id ≠ t.id := fun e => hvt (e ▸ hmem)
          have hc : t.id ∉ ids cs := fun e => hdisj _ e hmem
          obtain ⟨rest, hrest⟩ := iht hnt h
          refine ⟨entries a [⟨v, cs⟩] ++ rest, fun g hg => ?_⟩
          rw [alter_cons, if_neg hv, alter_eq_self hc, entries_cons_eq]
          refine ((hrest g hg).append_left _).trans ?_
          rw [← List.append_assoc, ← List.append_assoc]
          exact List.perm_append_comm.append_right rest

/-- **A change of siblings changes the entry of the vertex above them, and theirs.** -/
theorem entries_below (nodup : (ids ts).Nodup) (h : ⟨q, t⟩ ∈ places a ts) :
    ∃ rest, (entries a ts).Perm
        ((t.id, t.node q) :: (entries (some t.id) t.children ++ rest)) ∧
      ∀ k : List Branch → List Branch,
        (entries a (below (some t.id) k ts)).Perm
          ((t.id, Branch.node q ⟨t.vertex, k t.children⟩) ::
            (entries (some t.id) (k t.children) ++ rest)) := by
  obtain ⟨rest, hself, hrest⟩ := entries_alter nodup h
  rw [entries_cons, entries_nil, List.append_nil] at hself
  refine ⟨rest, hself, fun k => ?_⟩
  have := hrest (fun s => ⟨s.vertex, k s.children⟩) fun _ => rfl
  rw [entries_cons, entries_nil, List.append_nil] at this
  exact this

/-! ### Cutting out -/

theorem others_eq_self (h : ∀ t ∈ ts, t.id ≠ p) : others p ts = ts :=
  List.filter_eq_self.mpr fun t ht => decide_eq_true (h t ht)

/-- Of distinct siblings, all but one are those to its left and those to its right. -/
theorem others_append_cons {l r : List Branch} (nodup : ((l ++ t :: r).map Branch.id).Nodup) :
    others t.id (l ++ t :: r) = l ++ r := by
  rw [List.map_append, List.map_cons] at nodup
  obtain ⟨hl, hr, hdisj⟩ := List.nodup_append.mp nodup
  have hl : others t.id l = l := others_eq_self fun s hs e =>
    hdisj _ (List.mem_map_of_mem hs) _ List.mem_cons_self e
  have hr : others t.id r = r := others_eq_self fun s hs e =>
    (List.nodup_cons.mp hr).1 (e ▸ List.mem_map_of_mem hs)
  have hsplit : others t.id (l ++ t :: r) = others t.id l ++ others t.id r := by
    simp [others]
  rw [hsplit, hl, hr]

/-- A tree and the others are all siblings. -/
theorem perm_cons_others (nodup : (ts.map Branch.id).Nodup) (h : t ∈ ts) :
    ts.Perm (t :: others t.id ts) := by
  obtain ⟨l, r, rfl⟩ := List.append_of_mem h
  rw [others_append_cons nodup]
  exact List.perm_middle

/-- Cutting out a tree at the top filters the trees at the top. -/
theorem prune_of_mem (nodup : (ids ts).Nodup) (h : t ∈ ts) :
    prune t.id ts = others t.id ts := by
  induction ts with
  | nil => exact absurd h List.not_mem_nil
  | cons s ts ih =>
      obtain ⟨v, cs⟩ := s
      obtain ⟨hvc, hvt, hnc, hnt, hdisj⟩ := nodup_mk.mp nodup
      rcases List.mem_cons.mp h with rfl | h
      · rw [Branch.id_mk, prune_cons, if_pos rfl, prune_eq_self hvt]
        have : others v.id (⟨v, cs⟩ :: ts) = others v.id ts := by simp [others]
        rw [this, others_eq_self fun s hs (e : s.id = v.id) => hvt (e ▸ id_mem_ids_of_mem hs)]
      · have hmem := id_mem_ids_of_mem h
        have hv : v.id ≠ t.id := fun e => hvt (e ▸ hmem)
        rw [prune_cons, if_neg hv, ih hnt h, prune_eq_self fun e => hdisj _ e hmem]
        have : others t.id (⟨v, cs⟩ :: ts) = ⟨v, cs⟩ :: others t.id ts := by simp [others, hv]
        rw [this]

/-- Cutting out a child filters its siblings. -/
theorem prune_of_child (nodup : (ids ts).Nodup) (h : ⟨r, s⟩ ∈ places a ts)
    (ht : t ∈ s.children) :
    prune t.id ts = alter s.id (fun s => ⟨s.vertex, others t.id s.children⟩) ts := by
  induction ts using induction generalizing a with
  | nil => exact absurd h List.not_mem_nil
  | cons v cs ts ihc iht =>
      obtain ⟨hvc, hvt, hnc, hnt, hdisj⟩ := nodup_mk.mp nodup
      rw [places_cons] at h
      rcases List.mem_cons.mp h with h | h
      · cases h
        have hmem := id_mem_ids_of_mem ht
        have hv : v.id ≠ t.id := fun e => hvc (e ▸ hmem)
        rw [prune_cons, if_neg hv, prune_of_mem hnc ht, prune_eq_self (hdisj _ hmem),
          alter_cons, Branch.id_mk, if_pos rfl, alter_eq_self hvt]
      · rcases List.mem_append.mp h with h | h
        · have hs := mem_ids h
          have hmem := mem_ids (mem_places_child h ht)
          have hv : v.id ≠ t.id := fun e => hvc (e ▸ hmem)
          have hvs : v.id ≠ s.id := fun e => hvc (e ▸ hs)
          rw [prune_cons, if_neg hv, ihc hnc h, prune_eq_self (hdisj _ hmem),
            alter_cons, if_neg hvs, alter_eq_self (hdisj _ hs)]
        · have hs := mem_ids h
          have hmem := mem_ids (mem_places_child h ht)
          have hv : v.id ≠ t.id := fun e => hvt (e ▸ hmem)
          have hvs : v.id ≠ s.id := fun e => hvt (e ▸ hs)
          rw [prune_cons, if_neg hv, iht hnt h, prune_eq_self fun e => hdisj _ e hmem,
            alter_cons, if_neg hvs, alter_eq_self fun e => hdisj _ e hs]

/-- **Cutting a tree out filters the list of siblings that it stands in.** -/
theorem prune_eq_below (nodup : (ids ts).Nodup) (h : ⟨q, t⟩ ∈ places none ts) :
    prune t.id ts = below q (others t.id) ts := by
  rcases above_of_mem_places h with ⟨rfl, ht⟩ | ⟨r, s, hs, rfl, ht⟩
  · exact prune_of_mem nodup ht
  · exact prune_of_child nodup hs ht

/-- The ids of a tree and of what it is cut out of are those of the grove. -/
theorem ids_prune_perm (nodup : (ids ts).Nodup) (h : ⟨q, t⟩ ∈ places none ts) :
    (ids [t] ++ ids (prune t.id ts)).Perm (ids ts) := by
  rw [prune_eq_below nodup h]
  rcases above_of_mem_places h with ⟨rfl, ht⟩ | ⟨r, s, hs, rfl, ht⟩
  · rw [← ids_append]
    exact (ids_perm (perm_cons_others (nodup_map_id nodup) ht)).symm
  · obtain ⟨rest, hself, hrest⟩ := entries_below nodup hs
    have hself := hself.map Prod.fst
    have hids := (hrest (others t.id)).map Prod.fst
    rw [keys_entries, List.map_cons, List.map_append, keys_entries] at hself hids
    have hchildren := nodup_map_id (nodup_children nodup hs).2
    have hcut : (ids s.children).Perm (ids [t] ++ ids (others t.id s.children)) := by
      rw [← ids_append]
      exact ids_perm (perm_cons_others hchildren ht)
    refine (hids.append_left _).trans (List.perm_middle.trans ?_)
    rw [← List.append_assoc]
    exact ((hcut.symm.append_right _).cons _).trans hself.symm

/-! ### Putting in -/

/-- Putting a tree in its place adds that tree and reorders nothing else out of the list. -/
theorem putIn_perm (index : Option Nat) (t : Branch) (ts : List Branch) :
    (putIn index t ts).Perm (t :: ts) := by
  cases index with
  | none => exact List.perm_append_singleton t ts
  | some i => exact List.perm_insertIdx t ts (Nat.min_le_right i ts.length)

/-- The ids of siblings change as the list of siblings does. -/
theorem map_putIn (f : Branch → α) (index : Option Nat) (t : Branch) (ts : List Branch) :
    (putIn index t ts).map f = Document.insertAt index (f t) (ts.map f) := by
  cases index with
  | none => simp [putIn, Document.insertAt, ← List.insertIdx_length_self, List.map_insertIdx]
  | some i => simp [putIn, Document.insertAt, List.map_insertIdx]

end Rulebook.Grove
