import Rulebook.Dsl.Printer
import Rulebook.Proofs.Rule.Tree

/-!
# Rulebook — Proofs — Dsl — Reread

What a rule's text is read as, where calls are named like keywords (`Rule.reread`).  A keyword is
taken for one where an operand starts, if it is `NOT`, and behind an opening parenthesis; anywhere
else a name before a parenthesis is that of a call.  What is then left of the call are its
parentheses, and these are read as a group if there is another keyword in them and nothing else.

* `reread_eq_bare_iff`: a rule is read as itself just if no call of it stands where its name is
  taken for a keyword.
-/

namespace Rulebook

/-- The connective of a name that is the only argument. -/
def soleKeyword? : List Argument → Option Connective
  | [⟨.string s, .fieldReference⟩] => Connective.ofKeyword? s.toList
  | _ => none

theorem soleKeyword?_cons_cons (a b : Argument) (as : List Argument) :
    soleKeyword? (a :: b :: as) = none := by
  rw [soleKeyword?.eq_def]
  split
  · rename_i e
    cases e
  · rfl

namespace Rule

/-- The connective of the keyword that a rule's text starts with: that of a call with such a
name. -/
def keyword? : Rule → Option Connective
  | .atom (.call name _) _ => Connective.ofKeyword? name.toList
  | _ => none

/-- No call of the rule is named like a keyword where that would be taken for one: `NOT` anywhere,
and any other in front of several members with their connective between them. -/
structure Distinct (r : Rule) : Prop where
  negation : ∀ s ∈ r.preorder, s.keyword? ≠ some .not
  leading : ∀ op m q rest note, op ≠ .not →
    .junction (.connective op) (m :: q :: rest) note ∈ r.preorder → m.keyword? = none

/-! ### Reading -/

/-- What the parentheses of a call are read as by themselves. -/
def parentheses? : Rule → Option Rule
  | .atom (.call _ args) _ => (soleKeyword? args).map fun op => .group op []
  | _ => none

/-- The keyword, other than `NOT`, behind the opening parenthesis of a junction. -/
def leading? : Junction → List Rule → Option Connective
  | .connective op, m :: _ :: _ => if op = .not then none else m.keyword?.filter fun k => k != .not
  | _, _ => none

/-- What a junction is read as whose members are read as these.  Behind a keyword in front of the
first member all of it is a single member of another group. -/
def rejoin (j : Junction) (members read : List Rule) : Option Rule :=
  match leading? j members with
  | none => some (.junction j read none)
  | some op => (members.head?.bind parentheses?).map fun r =>
      .group op [.junction j (r :: read.tail) none]

mutual

/-- What a rule's text is read as, if it is read at all. -/
def reread : Rule → Option Rule
  | .atom a note =>
    if keyword? (.atom a note) = some .not then
      (parentheses? (.atom a note)).map fun r => .group .not [r]
    else some (.atom a none)
  | .scope s body _ => (reread body).map fun r => .scope s r none
  | .junction j members _ => (rereadAll members).bind (rejoin j members)

/-- What the texts of several rules are read as, if all of them are. -/
def rereadAll : List Rule → Option (List Rule)
  | [] => some []
  | r :: rs => (reread r).bind fun q => (rereadAll rs).map (q :: ·)

end

theorem exists_of_keyword? {r : Rule} {op : Connective} (h : r.keyword? = some op) :
    ∃ name args note, r = .atom (.call name args) note ∧
      Connective.ofKeyword? name.toList = some op := by
  rw [keyword?.eq_def] at h
  split at h
  · rename_i name args note
    exact ⟨name, args, note, rfl, h⟩
  · cases h

/-- Behind a parenthesis a keyword stands where the first of several members in a chain is a call
with such a name. -/
theorem leading?_eq_some {j : Junction} {members : List Rule} {op : Connective}
    (h : leading? j members = some op) : ∃ k m q rest, j = .connective k ∧
      members = m :: q :: rest ∧ k ≠ .not ∧ m.keyword? = some op ∧ op ≠ .not := by
  rw [leading?.eq_def] at h
  split at h
  · rename_i k m q rest
    split at h
    · cases h
    · rename_i hk
      obtain ⟨hm, hop⟩ := Option.filter_eq_some_iff.mp h
      exact ⟨k, m, q, rest, rfl, rfl, hk, hm, by simpa using hop⟩
  · cases h

theorem rereadAll_ne_nil {r : Rule} {rs qs : List Rule} (h : rereadAll (r :: rs) = some qs) :
    qs ≠ [] := by
  rw [rereadAll] at h
  obtain ⟨q, -, h⟩ := Option.bind_eq_some_iff.mp h
  obtain ⟨tail, -, rfl⟩ := Option.map_eq_some_iff.mp h
  exact List.cons_ne_nil q tail

/-- A rule that starts with no keyword but `NOT` is the first member of its junction. -/
theorem reread_junction_cons {j : Junction} {m : Rule} {rs : List Rule} {note : Option Metadata}
    (h : leading? j (m :: rs) = none) : reread (.junction j (m :: rs) note) =
      m.reread.bind fun r => (rereadAll rs).map fun qs => .junction j (r :: qs) none := by
  have join (read : List Rule) : rejoin j (m :: rs) read = some (.junction j read none) := by
    rw [rejoin, h]
  rw [reread, rereadAll]
  cases m.reread <;> cases rereadAll rs <;> simp [join]

/-- Behind another keyword there are the parentheses of the first member. -/
theorem reread_junction_leading {j : Junction} {m : Rule} {rs : List Rule} {op : Connective}
    {note : Option Metadata} (h : leading? j (m :: rs) = some op) :
    reread (.junction j (m :: rs) note) = m.parentheses?.bind fun r =>
      (rereadAll rs).map fun qs => .group op [.junction j (r :: qs) none] := by
  have join (read : List Rule) : rejoin j (m :: rs) read =
      m.parentheses?.map fun r => .group op [.junction j (r :: read.tail) none] := by
    rw [rejoin, h]
    rfl
  obtain ⟨k, first, q, rest, -, e, -, hm, hop⟩ := leading?_eq_some h
  cases e
  obtain ⟨name, args, n, rfl, -⟩ := exists_of_keyword? hm
  have first : reread (.atom (.call name args) n) = some (.atom (.call name args) none) := by
    rw [reread, hm, if_neg fun e => hop (Option.some.inj e)]
  rw [reread, rereadAll, first]
  cases hp : parentheses? (.atom (.call name args) n) <;> cases rereadAll (q :: rest) <;>
    simp [join, hp]

/-! ### Distinct rules -/

/-- Where no call is named like a keyword none is taken for one. -/
theorem distinct_of_keyword? {r : Rule} (h : ∀ s ∈ r.preorder, s.keyword? = none) :
    r.Distinct where
  negation s hs := by
    rw [h s hs]
    exact nofun
  leading op m q rest note _ hj := by
    refine h m (mem_preorder_trans hj ?_)
    rw [preorder]
    exact List.mem_cons_of_mem _ (preorder_subset_preorderAll List.mem_cons_self _
      (mem_preorder_self m))

theorem distinct_atom {a : Atom} {note : Option Metadata} :
    (atom a note).Distinct ↔ keyword? (atom a note) ≠ some .not := by
  refine ⟨fun h => h.negation _ (mem_preorder_self _), fun h => ⟨?_, ?_⟩⟩
  · intro s hs
    rw [List.mem_singleton.mp hs]
    exact h
  · intro op m q rest n _ hj
    cases List.mem_singleton.mp hj

theorem distinct_scope {s : Scope} {body : Rule} {note : Option Metadata} :
    (scope s body note).Distinct ↔ body.Distinct := by
  have inner {t : Rule} : t ∈ (scope s body note).preorder ↔
      t = scope s body note ∨ t ∈ body.preorder := by rw [preorder]; exact List.mem_cons
  refine ⟨fun h => ⟨fun t ht => h.negation t (inner.mpr (.inr ht)), ?_⟩, fun h => ⟨?_, ?_⟩⟩
  · intro op m q rest n hop hj
    exact h.leading op m q rest n hop (inner.mpr (.inr hj))
  · intro t ht
    rcases inner.mp ht with rfl | ht
    · intro hk
      cases hk
    · exact h.negation t ht
  · intro op m q rest n hop hj
    rcases inner.mp hj with hj | hj
    · cases hj
    · exact h.leading op m q rest n hop hj

theorem distinct_junction {j : Junction} {members : List Rule} {note : Option Metadata} :
    (junction j members note).Distinct ↔
      leading? j members = none ∧ ∀ m ∈ members, m.Distinct := by
  -- the parts are the junction itself and the parts of its members
  have inner {t : Rule} : t ∈ (junction j members note).preorder ↔
      t = junction j members note ∨ t ∈ preorderAll members := by
    rw [preorder]
    exact List.mem_cons
  constructor
  · intro h
    refine ⟨?_, fun m hm => ⟨fun t ht => ?_, fun op first q rest n hop hj => ?_⟩⟩
    · rw [leading?.eq_def]
      split
      · rename_i op m q rest
        split
        · rfl
        · rename_i hop
          rw [h.leading op m q rest note hop (mem_preorder_self _)]
          rfl
      · rfl
    · exact h.negation t (inner.mpr (.inr (preorder_subset_preorderAll hm t ht)))
    · exact h.leading op first q rest n hop
        (inner.mpr (.inr (preorder_subset_preorderAll hm _ hj)))
  · rintro ⟨hlead, h⟩
    refine ⟨fun t ht => ?_, fun op m q rest n hop hj => ?_⟩
    · rcases inner.mp ht with rfl | ht
      · intro hk
        cases hk
      · obtain ⟨m, hm, ht⟩ := exists_of_mem_preorderAll ht
        exact (h m hm).negation t ht
    · rcases inner.mp hj with hj | hj
      · cases hj
        have hnot := (h m List.mem_cons_self).negation m (mem_preorder_self m)
        rw [leading?, if_neg hop] at hlead
        cases hk : m.keyword? with
        | none => rfl
        | some k =>
            rw [hk] at hlead hnot
            have : k = .not := by simpa [Option.filter] using hlead
            exact absurd (congrArg some this) hnot
      · obtain ⟨r, hr, hj⟩ := exists_of_mem_preorderAll hj
        exact (h r hr).leading op m q rest n hop hj

/-- A junction whose members are read as they are is itself so just if there is no keyword in
front. -/
theorem bind_rejoin_eq_iff {j : Junction} {members bares : List Rule}
    (hlen : bares.length = members.length) {read : Option (List Rule)} :
    read.bind (rejoin j members) = some (.junction j bares none) ↔
      leading? j members = none ∧ read = some bares := by
  cases read with
  | none => simp
  | some rs =>
      rw [Option.bind_some, rejoin]
      split
      · rename_i hlead
        simp [hlead]
      · rename_i op hlead
        refine ⟨fun h => ?_, fun h => nomatch hlead.symm.trans h.1⟩
        -- a group of one member is none of several
        obtain ⟨r, -, hr⟩ := Option.map_eq_some_iff.mp h
        obtain ⟨k, m, q, rest, -, rfl, -⟩ := leading?_eq_some hlead
        cases hr
        cases hlen

mutual

/-- **A rule is read as itself just if no call in it is taken for a keyword.** -/
theorem reread_eq_bare_iff : ∀ r : Rule, r.reread = some r.bare ↔ r.Distinct
  | .atom a note => by
      rw [distinct_atom, reread, bare]
      split
      · rename_i hk
        refine ⟨fun h => ?_, fun h => absurd hk h⟩
        obtain ⟨r, -, h⟩ := Option.map_eq_some_iff.mp h
        cases h
      · rename_i hk
        exact ⟨fun _ => hk, fun _ => rfl⟩
  | .scope s body note => by
      rw [distinct_scope, reread, bare, ← reread_eq_bare_iff body]
      cases body.reread <;> simp
  | .junction j members note => by
      have hlen : ∀ rs : List Rule, (bareAll rs).length = rs.length := by
        intro rs
        induction rs with
        | nil => rfl
        | cons r rs ih => rw [bareAll, List.length_cons, ih, List.length_cons]
      rw [distinct_junction, reread, bare, bind_rejoin_eq_iff (hlen members),
        rereadAll_eq_bareAll_iff members]

theorem rereadAll_eq_bareAll_iff : ∀ rs : List Rule,
    rereadAll rs = some (bareAll rs) ↔ ∀ r ∈ rs, r.Distinct
  | [] => by simp [rereadAll, bareAll]
  | r :: rs => by
      rw [rereadAll, bareAll, List.forall_mem_cons, ← reread_eq_bare_iff r,
        ← rereadAll_eq_bareAll_iff rs]
      cases r.reread <;> cases rereadAll rs <;> simp

end

/-- `(AND(OR) AND f())` reads as an `AND` group of the chain `OR() AND f()`. -/
example :
    reread (group .and [.atom (.call "AND" [⟨.string "OR", .fieldReference⟩]) none,
      .atom (.call "f" []) none]) =
    some (group .and [group .and [group .or [], .atom (.call "f" []) none]]) := rfl

end Rule

end Rulebook
