import Rulebook.Proofs.Dsl.Accepted
import Rulebook.Proofs.Dsl.Records
import Rulebook.Proofs.RoundTrip.Drift

/-!
# Rulebook — Proofs — Rule — Places

The places in a rule.  A path of member positions leads to one of the rules of the tree or out of
the tree (`descendant?`).  A record is set if its path leads to a rule, which has the record then,
and all that is somewhere else is as it was.

* `exists_annotate_iff`, `note_annotate`: one record.
* `annotateAll_spec`: several records one after the other, of which the last one for a path counts.
-/

namespace Rulebook

open Dsl (PathRecord)

namespace Rule

/-- The rule that a path of member positions leads to. -/
def descendant? : List Nat → Rule → Option Rule
  | [], r => some r
  | i :: path, r => r.children[i]?.bind (descendant? path)

variable {n : Option Metadata} {path : List Nat} {r r' : Rule} {i : Nat}

theorem children_bare (r : Rule) : r.bare.children = r.children.map bare := r.children_kept false

/-- The places of a rule are those of the rule without records. -/
theorem descendant?_bare : ∀ (path : List Nat) (r : Rule),
    r.bare.descendant? path = (r.descendant? path).map bare
  | [], _ => rfl
  | i :: path, r => by
      rw [descendant?, descendant?, children_bare, List.getElem?_map]
      cases r.children[i]? with
      | none => rfl
      | some c => exact descendant?_bare path c

/-- There is no record anywhere in a rule without records. -/
theorem note_of_bare_eq_self {p : Rule} (h : r.bare = r) (hp : r.descendant? path = some p) :
    p.note = none := by
  have same := r.descendant?_bare path
  rw [h, hp] at same
  rw [Option.some.inj same]
  exact p.note_kept false

theorem exists_descendant?_of_bare_eq {q : Rule} (e : r.bare = q.bare) :
    (∃ p, r.descendant? path = some p) ↔ ∃ p, q.descendant? path = some p := by
  have leads (r : Rule) : (∃ p, r.descendant? path = some p) ↔
      (r.bare.descendant? path).isSome = true := by
    rw [descendant?_bare, Option.isSome_map, Option.isSome_iff_exists]
  rw [leads r, e, ← leads q]

/-! ### One record -/

theorem updateAt_eq_some_iff {α : Type} {f : α → Option α} {as bs : List α} {i : Nat} :
    updateAt f as i = some bs ↔ ∃ a b, as[i]? = some a ∧ f a = some b ∧ bs = as.set i b := by
  induction as generalizing i bs with
  | nil => exact ⟨nofun, fun ⟨_, _, h, _⟩ => nomatch h⟩
  | cons a as ih =>
      cases i with
      | zero => simp [updateAt, eq_comm]
      | succ i =>
          rw [updateAt, Option.map_eq_some_iff]
          simp only [ih, List.getElem?_cons_succ, List.set_cons_succ]
          constructor
          · rintro ⟨_, ⟨b, c, hb, hc, rfl⟩, rfl⟩
            exact ⟨b, c, hb, hc, rfl⟩
          · rintro ⟨b, c, hb, hc, rfl⟩
            exact ⟨_, ⟨b, c, hb, hc, rfl⟩, rfl⟩

/-- A record further down is set in one of the members. -/
theorem annotate_cons (h : r.annotate n (i :: path) = some r') :
    ∃ c c', r.children[i]? = some c ∧ c.annotate n path = some c' ∧
      r'.children = r.children.set i c' ∧ r'.note = r.note := by
  cases r with
  | atom a note => cases h
  | scope s body note =>
      rw [annotate] at h
      split at h
      · rename_i first
        obtain rfl := first
        obtain ⟨c', hc, rfl⟩ := Option.map_eq_some_iff.mp h
        exact ⟨body, c', rfl, hc, rfl, rfl⟩
      · cases h
  | junction j members note =>
      obtain ⟨ms, hms, rfl⟩ := Option.map_eq_some_iff.mp h
      obtain ⟨c, c', hc, hc', rfl⟩ := updateAt_eq_some_iff.mp hms
      exact ⟨c, c', hc, hc', rfl, rfl⟩

theorem exists_annotate_cons {c c' : Rule} (hc : r.children[i]? = some c)
    (h : c.annotate n path = some c') : ∃ r', r.annotate n (i :: path) = some r' := by
  cases r with
  | atom a note => cases hc
  | scope s body note =>
      cases i with
      | zero =>
          obtain rfl := Option.some.inj hc
          exact ⟨_, by rw [annotate, if_pos rfl, h]; rfl⟩
      | succ i => cases hc
  | junction j members note =>
      have hms : updateAt (annotate n path) members i = some (members.set i c') :=
        updateAt_eq_some_iff.mpr ⟨c, c', hc, h, rfl⟩
      exact ⟨_, by rw [annotate, hms]; rfl⟩

/-- A record can be set where there is a rule. -/
theorem exists_annotate_iff :
    (∃ r', r.annotate n path = some r') ↔ ∃ p, r.descendant? path = some p := by
  induction path generalizing r with
  | nil => exact ⟨fun _ => ⟨r, rfl⟩, fun _ => ⟨r.withNote n, rfl⟩⟩
  | cons i path ih =>
      rw [descendant?]
      constructor
      · rintro ⟨r', h⟩
        obtain ⟨c, c', hc, h, -⟩ := annotate_cons h
        rw [hc]
        exact ih.mp ⟨c', h⟩
      · rintro ⟨p, h⟩
        obtain ⟨c, hc, h⟩ := Option.bind_eq_some_iff.mp h
        obtain ⟨c', h⟩ := ih.mpr ⟨p, h⟩
        exact exists_annotate_cons hc h

theorem children_withNote (n : Option Metadata) (r : Rule) :
    (r.withNote n).children = r.children := by
  cases r <;> rfl

theorem note_withNote (n : Option Metadata) (r : Rule) : (r.withNote n).note = n := by
  cases r <;> rfl

/-- **A record is set at its path and nowhere else.** -/
theorem note_annotate (h : r.annotate n path = some r') (p : List Nat) :
    (r'.descendant? p).map note =
      (r.descendant? p).map fun q => if p = path then n else q.note := by
  induction path generalizing r r' p with
  | nil =>
      obtain rfl := Option.some.inj h
      cases p with
      | nil => exact congrArg some (note_withNote n r)
      | cons i p =>
          simp only [descendant?, children_withNote, reduceCtorEq, if_false]
  | cons i path ih =>
      obtain ⟨c, c', hc, hc', hs, hn⟩ := annotate_cons h
      cases p with
      | nil => simpa [descendant?] using hn
      | cons k p =>
          rw [descendant?, descendant?, hs]
          by_cases hk : k = i
          · obtain rfl := hk
            rw [List.getElem?_set_self (List.getElem?_eq_some_iff.mp hc).1, hc, Option.bind_some,
              Option.bind_some, ih hc' p]
            simp only [List.cons.injEq, true_and]
          · rw [List.getElem?_set_ne (Ne.symm hk)]
            simp only [List.cons.injEq, hk, false_and, if_false]

/-! ### Several records -/

/-- The last of several records for a path. -/
def lastRecord (records : List PathRecord) (path : List Nat) : Option Metadata :=
  (records.filter fun a => a.path = path).getLast?.map PathRecord.metadata

theorem lastRecord_cons (a : PathRecord) (as : List PathRecord) (path : List Nat) :
    lastRecord (a :: as) path =
      (lastRecord as path).or (if path = a.path then some a.metadata else none) := by
  rw [lastRecord, lastRecord, List.filter_cons]
  by_cases e : a.path = path
  · rw [if_pos (decide_eq_true e), List.getLast?_cons, if_pos e.symm]
    cases (as.filter fun a => a.path = path).getLast? <;> rfl
  · rw [if_neg (by simpa using e), if_neg (Ne.symm e), Option.or_none]

/-- **Records set one after the other** can be set if each has a place.  At every path the last
record counts, or the one that was there if there is none, and nothing else changes. -/
theorem annotateAll_spec (records : List PathRecord) (r : Rule) :
    ((∃ r', annotateAll records r = some r') ↔
      ∀ a ∈ records, ∃ p, r.descendant? a.path = some p) ∧
    ∀ r', annotateAll records r = some r' → r'.bare = r.bare ∧
      ∀ path, (r'.descendant? path).map note =
        (r.descendant? path).map fun q => (lastRecord records path).or q.note := by
  induction records generalizing r with
  | nil =>
      refine ⟨⟨fun _ => nofun, fun _ => ⟨r, rfl⟩⟩, fun r' h => ?_⟩
      obtain rfl := Option.some.inj h
      exact ⟨rfl, fun _ => rfl⟩
  | cons a as ih =>
      rw [annotateAll_cons, List.forall_mem_cons, ← exists_annotate_iff (n := some a.metadata)]
      cases ha : r.annotate (some a.metadata) a.path with
      | none => exact ⟨⟨nofun, fun h => nomatch h.1⟩, nofun⟩
      | some q =>
          have bare := bare_annotate ha
          obtain ⟨places, notes⟩ := ih q
          constructor
          · rw [Option.bind_some, places]
            simp only [exists_descendant?_of_bare_eq bare]
            exact (and_iff_right ⟨q, rfl⟩).symm
          · intro r' h
            obtain ⟨hb, hn⟩ := notes r' h
            refine ⟨hb.trans bare, fun path => ?_⟩
            -- the first record is what is there for the later ones
            have first (s : Rule) : (lastRecord (a :: as) path).or s.note =
                (lastRecord as path).or (if path = a.path then some a.metadata else s.note) := by
              rw [lastRecord_cons, Option.or_assoc]
              split <;> rfl
            calc (r'.descendant? path).map note
              _ = ((q.descendant? path).map note).map (lastRecord as path).or := by
                  rw [hn path, Option.map_map]
                  rfl
              _ = (r.descendant? path).map fun s => (lastRecord (a :: as) path).or s.note := by
                  rw [note_annotate ha path, Option.map_map]
                  simp only [first]
                  rfl

end Rule

end Rulebook
