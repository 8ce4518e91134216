import Rulebook.Json.Basic
import Rulebook.KeyMap

/-!
# Rulebook — Json — Canonical

Canonical JSON values: the members of every object stand in strictly increasing order of their
keys, every integer fits in 64 bits, every floating-point number is finite and nothing is
unreadable.  Such a value is what an opaque payload of a rule holds.

* `canonical_canonicalize`: sorting members, of a repeated key the last one staying, makes any
  value canonical.
* `isReadable_of_canonical`: a canonical value can be copied.
-/

namespace Rulebook.Json

mutual

/-- Members sorted and unrepeated, integers in range, other numbers finite, all of it readable. -/
def Canonical : Json → Prop
  | .null => True
  | .bool _ => True
  | .int n => inRange n = true
  | .float x => x.isFinite = true
  | .string _ => True
  | .array items => CanonicalAll items
  | .object members => members.Pairwise (fun a b => a.1 < b.1) ∧ CanonicalMembers members
  | .unreadable => False

/-- Every item is canonical. -/
def CanonicalAll : List Json → Prop
  | [] => True
  | j :: js => Canonical j ∧ CanonicalAll js

/-- Every member's value is canonical. -/
def CanonicalMembers : List (String × Json) → Prop
  | [] => True
  | (_, j) :: rest => Canonical j ∧ CanonicalMembers rest

end

/-- Members in order of their keys; of a repeated key the last one stays. -/
def sortMembers : List (String × Json) → List (String × Json)
  | [] => []
  | (k, v) :: rest =>
    let sorted := sortMembers rest
    match KeyMap.find k sorted with
    | some _ => sorted
    | none => KeyMap.place k v sorted

mutual

/-- The canonical value of the same meaning.  What cannot be held becomes null. -/
def canonicalize : Json → Json
  | .null => .null
  | .bool b => .bool b
  | .int n => if inRange n then .int n else .null
  | .float x => if x.isFinite then .float x else .null
  | .string s => .string s
  | .array items => .array (canonicalizeAll items)
  | .object members => .object (sortMembers (canonicalizeMembers members))
  | .unreadable => .null

/-- Every item made canonical. -/
def canonicalizeAll : List Json → List Json
  | [] => []
  | j :: js => canonicalize j :: canonicalizeAll js

/-- Every member's value made canonical. -/
def canonicalizeMembers : List (String × Json) → List (String × Json)
  | [] => []
  | (k, j) :: rest => (k, canonicalize j) :: canonicalizeMembers rest

end

theorem pairwise_sortMembers (l : List (String × Json)) :
    (sortMembers l).Pairwise (fun a b => a.1 < b.1) := by
  induction l with
  | nil => exact .nil
  | cons hd tl ih =>
    rw [sortMembers]
    split
    · exact ih
    · exact KeyMap.pairwise_place _ _ ih

theorem canonicalMembers_iff (l : List (String × Json)) :
    CanonicalMembers l ↔ ∀ e ∈ l, Canonical e.2 := by
  induction l with
  | nil => simp [CanonicalMembers]
  | cons hd tl ih => simp [CanonicalMembers, ih]

theorem mem_sortMembers {e : String × Json} {l : List (String × Json)}
    (h : e ∈ sortMembers l) : e ∈ l := by
  induction l with
  | nil => simp [sortMembers] at h
  | cons hd tl ih =>
    rw [sortMembers] at h
    split at h
    · exact List.mem_cons_of_mem _ (ih h)
    · rcases KeyMap.mem_place h with rfl | h
      · exact List.mem_cons_self
      · exact List.mem_cons_of_mem _ (ih h)

mutual

theorem canonical_canonicalize : ∀ j : Json, Canonical (canonicalize j)
  | .null => trivial
  | .bool _ => trivial
  | .int n => by
    rw [canonicalize]
    split
    · assumption
    · trivial
  | .float x => by
    rw [canonicalize]
    split
    · assumption
    · trivial
  | .string _ => trivial
  | .array items => by
    rw [canonicalize, Canonical]
    exact canonicalAll_canonicalizeAll items
  | .object members => by
    rw [canonicalize, Canonical]
    refine ⟨pairwise_sortMembers _, (canonicalMembers_iff _).2 fun e he => ?_⟩
    exact (canonicalMembers_iff _).1 (canonicalMembers_canonicalizeMembers members) e
      (mem_sortMembers he)
  | .unreadable => trivial

theorem canonicalAll_canonicalizeAll : ∀ l : List Json, CanonicalAll (canonicalizeAll l)
  | [] => trivial
  | j :: js => ⟨canonical_canonicalize j, canonicalAll_canonicalizeAll js⟩

theorem canonicalMembers_canonicalizeMembers :
    ∀ l : List (String × Json), CanonicalMembers (canonicalizeMembers l)
  | [] => trivial
  | (_, j) :: rest => ⟨canonical_canonicalize j, canonicalMembers_canonicalizeMembers rest⟩

end

mutual

theorem isReadable_of_canonical : ∀ {j : Json}, Canonical j → j.isReadable = true
  | .null, _ | .bool _, _ | .int _, _ | .float _, _ | .string _, _ => rfl
  | .array _, h => by
    rw [Canonical] at h
    rw [isReadable, areReadable_of_canonicalAll h]
  | .object _, h => by
    rw [Canonical] at h
    rw [isReadable, areReadableMembers_of_canonicalMembers h.2]
  | .unreadable, h => h.elim

theorem areReadable_of_canonicalAll : ∀ {l : List Json}, CanonicalAll l → areReadable l = true
  | [], _ => rfl
  | _ :: _, h => by
    rw [areReadable, isReadable_of_canonical h.1, areReadable_of_canonicalAll h.2, Bool.true_and]

theorem areReadableMembers_of_canonicalMembers :
    ∀ {l : List (String × Json)}, CanonicalMembers l → areReadableMembers l = true
  | [], _ => rfl
  | (_, _) :: _, h => by
    rw [areReadableMembers, isReadable_of_canonical h.1,
      areReadableMembers_of_canonicalMembers h.2, Bool.true_and]

end

end Json

/-- An opaque JSON value carried by a rule. -/
structure Payload where
  value : Json
  canonical : value.Canonical

namespace Payload

instance : Repr Payload := ⟨fun p n => reprPrec p.value n⟩

/-- No payload. -/
def null : Payload := ⟨.null, trivial⟩

instance : Inhabited Payload := ⟨null⟩

/-- The payload that a JSON value stands for. -/
def ofJson (j : Json) : Payload := ⟨j.canonicalize, j.canonical_canonicalize⟩

/-- Equality of payload values. -/
def agrees (p q : Payload) : Bool := p.value.agrees q.value

end Payload

end Rulebook
