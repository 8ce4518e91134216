import Rulebook.Json.Record
import Rulebook.Proofs.Json.Values
import Rulebook.Proofs.KeyMap

/-!
# Rulebook — Proofs — Json — Record

What a record reads out of an object does not depend on the order of the object's members.  A value
is therefore read as well from a rearrangement of its JSON, such as the canonical one, as from the
JSON that was written (`Rearranges`).

* `Record.read_object`, `Record.readObject_object`: the record of a rearranged object is a view of
  the members as they were written.
* The remaining lemmas say what each basic reader gets back from what its writer wrote.
-/

namespace Rulebook.Json

/-! ### Members by their names -/

theorem expressibleAll_iff {js : List Json} : ExpressibleAll js ↔ ∀ j ∈ js, Expressible j := by
  induction js with
  | nil => simp [ExpressibleAll]
  | cons j js ih => simp [ExpressibleAll, ih]

/-- Members can be written exactly if each value can. -/
theorem expressibleMembers_iff {ms : List (String × Json)} :
    ExpressibleMembers ms ↔ ∀ m ∈ ms, Expressible m.2 := by
  induction ms with
  | nil => simp [ExpressibleMembers]
  | cons m ms ih => simp [ExpressibleMembers, ih]

theorem areReadableMembers_iff {ms : List (String × Json)} :
    areReadableMembers ms = true ↔ ∀ m ∈ ms, m.2.isReadable = true := by
  induction ms with
  | nil => simp [areReadableMembers]
  | cons m ms ih => simp [areReadableMembers, ih]

/-- An item is no higher than the highest. -/
theorem height_le_heightAll {j : Json} {js : List Json} (h : j ∈ js) :
    height j ≤ heightAll js := by
  induction js with
  | nil => exact absurd h List.not_mem_nil
  | cons k js ih =>
      rw [heightAll]
      rcases List.mem_cons.mp h with rfl | h
      · exact Nat.le_max_left _ _
      · exact Nat.le_trans (ih h) (Nat.le_max_right _ _)

/-- A member's value is no higher than the highest. -/
theorem height_le_heightMembers {m : String × Json} {ms : List (String × Json)} (h : m ∈ ms) :
    height m.2 ≤ heightMembers ms := by
  induction ms with
  | nil => exact absurd h List.not_mem_nil
  | cons k ms ih =>
      rw [heightMembers]
      rcases List.mem_cons.mp h with rfl | h
      · exact Nat.le_max_left _ _
      · exact Nat.le_trans (ih h) (Nat.le_max_right _ _)

@[simp] theorem lookup_nil (key : String) : lookup key [] = none := rfl

/-- The last member with a name is the one that counts. -/
@[simp] theorem lookup_cons (key k : String) (j : Json) (ms : List (String × Json)) :
    lookup key ((k, j) :: ms) = (lookup key ms).or (if k = key then some j else none) := by
  rw [lookup]
  cases lookup key ms <;> rfl

/-- Of two parts, a member is looked up in the second and then in the first. -/
@[simp] theorem lookup_append (key : String) (ms ns : List (String × Json)) :
    lookup key (ms ++ ns) = (lookup key ns).or (lookup key ms) := by
  induction ms with
  | nil => simp
  | cons m ms ih => rw [List.cons_append, lookup_cons, lookup_cons, ih, Option.or_assoc]

/-- There is nothing under a name that no member has. -/
theorem lookup_eq_none {key : String} {ms : List (String × Json)} (h : key ∉ ms.map Prod.fst) :
    lookup key ms = none := by
  induction ms with
  | nil => rfl
  | cons m ms ih =>
      have hm : m.1 ≠ key := fun e => h (e ▸ List.mem_cons_self)
      rw [lookup_cons, ih fun hms => h (List.mem_cons_of_mem _ hms), if_neg hm]
      rfl

/-- Changing the values changes what is looked up. -/
theorem lookup_map (g : Json → Json) (key : String) (ms : List (String × Json)) :
    lookup key (ms.map fun m => (m.1, g m.2)) = (lookup key ms).map g := by
  induction ms with
  | nil => rfl
  | cons m ms ih =>
      rw [List.map_cons, lookup_cons, lookup_cons, ih, Option.map_or]
      split <;> rfl

section Nodup

variable {ms : List (String × Json)} (h : (ms.map Prod.fst).Nodup)
include h

/-- Where no name is repeated, a look-up finds the member of that name. -/
theorem lookup_eq_some_iff {key : String} {v : Json} : lookup key ms = some v ↔ (key, v) ∈ ms := by
  induction ms generalizing v with
  | nil => simp
  | cons m ms ih =>
      obtain ⟨k, w⟩ := m
      obtain ⟨hk, hms⟩ : k ∉ ms.map Prod.fst ∧ (ms.map Prod.fst).Nodup := List.nodup_cons.mp h
      rw [lookup_cons, List.mem_cons, ← ih hms]
      cases found : lookup key ms with
      | some u =>
          -- the name is behind, so that it is not this one
          have hu : (key, u) ∈ ms := (ih hms).mp found
          have hne : key ≠ k := by
            rintro rfl
            exact hk (List.mem_map_of_mem (f := Prod.fst) hu)
          simp [hne]
      | none =>
          by_cases e : k = key
          · simp [e, eq_comm]
          · simp [e, Ne.symm e]

/-- The order of members with distinct names does not matter. -/
theorem lookup_of_perm {ns : List (String × Json)} (hp : ns.Perm ms) (key : String) :
    lookup key ns = lookup key ms := by
  have hns : (ns.map Prod.fst).Nodup := (hp.map Prod.fst).nodup_iff.mpr h
  ext v
  rw [lookup_eq_some_iff hns, lookup_eq_some_iff h, hp.mem_iff]

/-- Members with distinct names repeat none of any. -/
theorem unrepeated_of_nodup (names : List String) : Record.unrepeated names ms = true := by
  refine List.all_eq_true.mpr fun name _ => decide_eq_true ?_
  have count : (ms.filter fun m => m.1 = name).length = (ms.map Prod.fst).count name := by
    rw [List.count, List.countP_map, List.countP_eq_length_filter]
    exact congrArg List.length (List.filter_congr fun m _ => by simp [beq_eq_decide])
  rw [count]
  exact List.nodup_iff_count_le_one.mp h name

/-- Sorting reorders members. -/
theorem sortMembers_perm : (sortMembers ms).Perm ms := by
  induction ms with
  | nil => exact .refl _
  | cons m ms ih =>
      obtain ⟨k, v⟩ := m
      obtain ⟨hk, hms⟩ : k ∉ ms.map Prod.fst ∧ (ms.map Prod.fst).Nodup := List.nodup_cons.mp h
      have hne : ∀ e ∈ sortMembers ms, e.1 ≠ k := by
        rintro e he rfl
        exact hk (List.mem_map_of_mem (f := Prod.fst) (mem_sortMembers he))
      have hfind : KeyMap.find k (sortMembers ms) = none := by
        cases found : KeyMap.find k (sortMembers ms) with
        | none => rfl
        | some w =>
            have hs : ((sortMembers ms).map Prod.fst).Nodup :=
              ((ih hms).map Prod.fst).nodup_iff.mpr hms
            exact absurd rfl (hne _ ((KeyMap.find_eq_some_iff hs).mp found))
      rw [sortMembers, hfind]
      refine (KeyMap.place_perm k v (pairwise_sortMembers ms)).trans ?_
      rw [KeyMap.drop_of_forall_ne hne]
      exact (ih hms).cons (k, v)

end Nodup

theorem canonicalizeMembers_eq_map (ms : List (String × Json)) :
    canonicalizeMembers ms = ms.map fun m => (m.1, canonicalize m.2) := by
  induction ms with
  | nil => rfl
  | cons m ms ih => rw [canonicalizeMembers, ih, List.map_cons]

theorem canonicalizeAll_eq_map (js : List Json) : canonicalizeAll js = js.map canonicalize := by
  induction js with
  | nil => rfl
  | cons j js ih => rw [canonicalizeAll, ih, List.map_cons]

/-! ### Rearrangements -/

/-- A function that at most puts the members of objects into another order, as far as values that a
text can stand for are concerned. -/
structure Rearranges (f : Json → Json) : Prop where
  scalar : ∀ {j : Json}, Expressible j → nesting j = 0 → f j = j
  array : ∀ js : List Json, f (.array js) = .array (js.map f)
  object : ∀ {ms : List (String × Json)}, (ms.map Prod.fst).Nodup →
    ∃ ns, f (.object ms) = .object ns ∧ ns.Perm (ms.map fun m => (m.1, f m.2))
  readable : ∀ {j : Json}, Expressible j → (f j).isReadable = true
  payload : ∀ {j : Json}, Canonical j → canonicalize (f j) = j

/-- Leaving everything as it is rearranges it. -/
theorem rearranges_id : Rearranges id where
  scalar _ _ := rfl
  array js := by simp
  object {ms} _ := ⟨ms, rfl, by simp⟩
  readable := isReadable_of_expressible
  payload := canonicalize_of_canonical

/-- The canonical form is a rearrangement. -/
theorem rearranges_canonicalize : Rearranges canonicalize where
  scalar {j} hj h0 := by
    cases j with
    | int n => exact if_pos hj
    | float x => exact if_pos hj
    | array js => exact absurd h0 (by simp [nesting])
    | object ms => exact absurd h0 (by simp [nesting])
    | unreadable => exact hj.elim
    | _ => rfl
  array js := congrArg Json.array (canonicalizeAll_eq_map js)
  object {ms} h := by
    refine ⟨sortMembers (canonicalizeMembers ms), rfl, ?_⟩
    rw [canonicalizeMembers_eq_map]
    exact sortMembers_perm (by simpa [List.map_map, Function.comp_def] using h)
  readable {j} _ := isReadable_of_canonical (canonical_canonicalize j)
  payload {j} h := by rw [canonicalize_of_canonical h, canonicalize_of_canonical h]

/-! ### Records -/

/-- The record of members that stand rearranged in an object. -/
def Record.view (f : Json → Json) (s : Standing) (ms : List (String × Json)) : Record :=
  ⟨fun name => (lookup name ms).map f, s, false⟩

variable {f : Json → Json} {s : Standing} {α : Type}

namespace Record

variable {ms : List (String × Json)} {name : String} {decode : Decoder α}

@[simp] theorem aside_view : (view f s ms).aside = view f .setAside ms := rfl

/-- A required value is read from the rearranged member, if there is one. -/
@[simp] theorem required_view :
    (view f s ms).required name decode = (lookup name ms).bind fun j => decode s (f j) := by
  cases h : lookup name ms <;> simp [required, view, h]

/-- A value that may be null is read from the rearranged member, and is null if there is none. -/
@[simp] theorem nullable_view : (view f s ms).nullable name decode =
    ((lookup name ms).map fun j => asNullable decode s (f j)).getD (some none) := by
  cases h : lookup name ms <;> simp [nullable, view, h]

/-- A value with a default is read from the rearranged member, and is the default if there is none.
-/
@[simp] theorem withDefault_view {default : α} : (view f s ms).withDefault name default decode =
    ((lookup name ms).map fun j => decode s (f j)).getD (some default) := by
  cases h : lookup name ms <;> simp [withDefault, view, h]

@[simp] theorem optional_view : (view f s ms).optional name decode =
    ((lookup name ms).map fun j => asNullable decode s (f j)).getD (some none) := withDefault_view

end Record

namespace Rearranges

variable (hf : Rearranges f)
include hf

section Object

variable {ms : List (String × Json)} (h : (ms.map Prod.fst).Nodup)
include h

omit hf in
/-- What is looked up in a rearranged object is the rearranged member. -/
theorem lookup_object {ns : List (String × Json)} (hp : ns.Perm (ms.map fun m => (m.1, f m.2)))
    (name : String) : lookup name ns = (lookup name ms).map f := by
  have hm : ((ms.map fun m => (m.1, f m.2)).map Prod.fst).Nodup := by
    simpa [List.map_map, Function.comp_def] using h
  exact (lookup_of_perm hm hp name).trans (lookup_map f name ms)

omit hf in
/-- The record of a rearranged object's members is a view. -/
theorem ofMembers_object {ns : List (String × Json)}
    (hp : ns.Perm (ms.map fun m => (m.1, f m.2))) (names : List String) :
    Record.ofMembers names s ns = some (.view f s ms) := by
  have hn : (ns.map Prod.fst).Nodup := by
    refine (hp.map Prod.fst).nodup_iff.mpr ?_
    simpa [List.map_map, Function.comp_def] using h
  rw [Record.ofMembers, if_pos (unrepeated_of_nodup hn names), funext (lookup_object h hp)]
  rfl

theorem get?_object (name : String) : (f (.object ms)).get? name = (lookup name ms).map f := by
  obtain ⟨ns, e, hp⟩ := hf.object h
  rw [e]
  exact lookup_object h hp name

/-- Reading a rearranged object gives the view of its members. -/
theorem read_object (names : List String) :
    Record.read names s (f (.object ms)) = some (.view f s ms) := by
  obtain ⟨ns, e, hp⟩ := hf.object h
  rw [e]
  exact ofMembers_object h hp names

/-- Where it has to be an object, a rearranged one is read as the view of its members. -/
theorem readObject_object (names : List String) :
    Record.readObject names s (f (.object ms)) = some (.view f s ms) := by
  obtain ⟨ns, e, hp⟩ := hf.object h
  rw [e]
  exact ofMembers_object h hp names

/-- A member's value is less high than its object, rearranged or not. -/
theorem height_lt_object {m : String × Json} (hm : m ∈ ms) :
    (f m.2).height < (f (.object ms)).height := by
  obtain ⟨ns, e, hp⟩ := hf.object h
  have hn : (m.1, f m.2) ∈ ns := hp.mem_iff.mpr (List.mem_map_of_mem hm)
  have le : (f m.2).height ≤ heightMembers ns := height_le_heightMembers hn
  rw [e, height]
  omega

end Object

/-- An item is less high than its array, rearranged or not. -/
theorem height_lt_array {j : Json} {js : List Json} (hj : j ∈ js) :
    (f j).height < (f (.array js)).height := by
  have := height_le_heightAll (List.mem_map_of_mem (f := f) hj)
  rw [hf.array, height]
  omega

/-! ### Basic readers -/

theorem null : f .null = .null := hf.scalar trivial rfl

theorem string (t : String) : f (.string t) = .string t := hf.scalar trivial rfl

/-- A string is read back. -/
@[simp] theorem asString_string (t : String) : asString s (f (.string t)) = some t := by
  rw [hf.string]
  rfl

/-- A name in a table is read back. -/
theorem asNamed_string (table : List (String × α)) (t : String) :
    asNamed table s (f (.string t)) = named table t := by
  rw [hf.string]
  rfl

theorem asShape_string (shapes : List (String × α)) (t : String) :
    asShape shapes s (f (.string t)) = named shapes t := by
  rw [hf.string]
  cases s <;> rfl

/-- A number below a bound is read back. -/
theorem asNatBelow_nat {n bound : Nat} (h : n < bound) (hb : bound ≤ UInt64.size) :
    asNatBelow bound s (f (nat n)) = some n := by
  have hn : Expressible (nat n) := by
    have : UInt64.size = 0x10000000000000000 := rfl
    simp only [nat, Expressible, inRange, Bool.and_eq_true, decide_eq_true_eq]
    omega
  rw [hf.scalar hn rfl, nat, asNatBelow]
  simp [h]

/-- A word of 64 bits is read back. -/
@[simp] theorem asUInt64_nat (n : UInt64) : asUInt64 s (f (nat n.toNat)) = some n := by
  rw [asUInt64, hf.asNatBelow_nat n.toNat_lt (Nat.le_refl _)]
  simp

/-- A word of 32 bits is read back. -/
@[simp] theorem asUInt32_nat (n : UInt32) : asUInt32 s (f (nat n.toNat)) = some n := by
  rw [asUInt32, hf.asNatBelow_nat n.toNat_lt (by decide)]
  simp

/-- Null is read back as null. -/
@[simp] theorem asNullable_null (decode : Decoder α) :
    asNullable decode s (f .null) = some none := by
  rw [hf.null]
  rfl

omit hf in
/-- What is not null is read as its value. -/
theorem asNullable_of_ne_null {j : Json} (h : j ≠ .null) (decode : Decoder α) :
    asNullable decode s j = (decode s j).map some := by
  cases j with
  | null => exact absurd rfl h
  | _ => rfl

omit hf in
/-- What a reader that refuses null reads is there. -/
theorem asNullable_eq_some {decode : Decoder α} {j : Json} {a : α} (h : decode s j = some a)
    (hn : decode s .null = none) : asNullable decode s j = some (some a) := by
  have present : j ≠ .null := by
    rintro rfl
    rw [hn] at h
    cases h
  rw [asNullable_of_ne_null present, h, Option.map_some]

/-- A value that may be absent is read back by a reader that refuses null. -/
theorem asNullable_orNull {decode : Decoder α} {encode : α → Json} {a : Option α}
    (h : ∀ b, a = some b → decode s (f (encode b)) = some b) (hn : decode s .null = none) :
    asNullable decode s (f (orNull (a.map encode))) = some a := by
  cases a with
  | none => exact hf.asNullable_null decode
  | some b => exact asNullable_eq_some (h b rfl) hn

omit hf in
/-- Items that are read one by one are read together. -/
theorem mapM_eq_some_map {β : Type} {decode : α → Option β} {g : α → β} {as : List α}
    (h : ∀ a ∈ as, decode a = some (g a)) : as.mapM decode = some (as.map g) := by
  induction as with
  | nil => rfl
  | cons a as ih =>
      obtain ⟨ha, has⟩ := List.forall_mem_cons.mp h
      simp [List.mapM_cons, ha, ih has]

/-- The items of a list are read one by one. -/
theorem asList_map {β : Type} {decode : Decoder β} {encode : α → Json} {g : α → β} {as : List α}
    (h : ∀ a ∈ as, decode s (f (encode a)) = some (g a)) :
    asList decode s (f (.array (as.map encode))) = some (as.map g) := by
  have read : as.mapM (decode s ∘ f ∘ encode) = some (as.map g) := mapM_eq_some_map h
  rw [hf.array, asList, List.map_map, List.mapM_map, read]

/-- A list is read back if its items are. -/
theorem asList_self {decode : Decoder α} {encode : α → Json} {as : List α}
    (h : ∀ a ∈ as, decode s (f (encode a)) = some a) :
    asList decode s (f (.array (as.map encode))) = some as := by
  rw [hf.asList_map (g := id) h, List.map_id]

end Rearranges

end Rulebook.Json
