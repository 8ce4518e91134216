import Rulebook.Proofs.Dsl.Accepted
import Rulebook.Proofs.Dsl.RoundTrip

/-!
# Rulebook — Proofs — Dsl — Distinct

A written rule reads back as itself just if no call in it stands where its name is taken for a
keyword (`parse_print_iff`), in every layout.

The check in front of the printer lets calls have the names of keywords.  One named `NOT` never
reads back, and one with another such name does not as the first of several members of a group with
its connective between them.  Anywhere else, as a later member, under `NOT`, in a list or in a group
of its own, a keyword before a parenthesis is the name of a call.
-/

namespace Rulebook

open Dsl

namespace Rule

/-! ### Nothing read has records -/

theorem bare_parentheses {r q : Rule} (h : r.parentheses? = some q) : q.bare = q := by
  rw [parentheses?.eq_def] at h
  split at h
  · obtain ⟨op, -, rfl⟩ := Option.map_eq_some_iff.mp h
    rfl
  · cases h

theorem bareAll_tail (rs : List Rule) : bareAll rs.tail = (bareAll rs).tail := by
  cases rs <;> rfl

theorem bare_rejoin {j : Junction} {members read : List Rule} {q : Rule}
    (hr : bareAll read = read) (h : rejoin j members read = some q) : q.bare = q := by
  rw [rejoin] at h
  split at h
  · cases h
    rw [bare, hr]
  · obtain ⟨r, hp, rfl⟩ := Option.map_eq_some_iff.mp h
    obtain ⟨m, -, hm⟩ := Option.bind_eq_some_iff.mp hp
    rw [group, bare, bareAll, bare, bareAll, bareAll, bare_parentheses hm, bareAll_tail, hr]

mutual

/-- What a rule is read again as carries no records. -/
theorem bare_reread : ∀ {r q : Rule}, r.reread = some q → q.bare = q
  | .atom a note, q, h => by
      rw [reread] at h
      split at h
      · obtain ⟨p, hp, rfl⟩ := Option.map_eq_some_iff.mp h
        rw [group, bare, bareAll, bareAll, bare_parentheses hp]
      · cases h
        rfl
  | .scope s body note, q, h => by
      rw [reread] at h
      obtain ⟨b, hb, rfl⟩ := Option.map_eq_some_iff.mp h
      rw [bare, bare_reread hb]
  | .junction j members note, q, h => by
      rw [reread] at h
      obtain ⟨read, hr, hq⟩ := Option.bind_eq_some_iff.mp h
      exact bare_rejoin (bareAll_rereadAll hr) hq

theorem bareAll_rereadAll : ∀ {rs qs : List Rule}, rereadAll rs = some qs → bareAll qs = qs
  | [], qs, h => by
      cases h
      rfl
  | r :: rs, qs, h => by
      rw [rereadAll] at h
      obtain ⟨q, hq, h⟩ := Option.bind_eq_some_iff.mp h
      obtain ⟨tail, ht, rfl⟩ := Option.map_eq_some_iff.mp h
      rw [bareAll, bare_reread hq, bareAll_rereadAll ht]

end

mutual

theorem bare_bare : ∀ r : Rule, r.bare.bare = r.bare
  | .atom _ _ => rfl
  | .scope s body _ => by rw [bare, bare, bare_bare body]
  | .junction j members _ => by rw [bare, bare, bareAll_bareAll members]

theorem bareAll_bareAll : ∀ rs : List Rule, bareAll (bareAll rs) = bareAll rs
  | [] => rfl
  | r :: rs => by rw [bareAll, bareAll, bare_bare r, bareAll_bareAll rs]

end

end Rule

namespace Dsl

variable {r : Rule} {o : Layout}

/-- From a written rule the grammar reads what that is to be read as. -/
theorem readStructure_render (h : r.check = .ok ()) (hs : r.Shallow) (hd : r.depth ≤ nestingLimit)
    {q : Rule} : readStructure (o.render r) = .ok (some q) ↔ r.reread = some q := by
  obtain ⟨before, after, frame⟩ := exists_framed (o := o) h
  have whole := document_yields (o := o) h hs hd frame.before_trivia frame.after_ends
    frame.after_trivia
  rw [readStructure, frame.text_eq]
  cases hr : r.reread with
  | none =>
      rw [hr] at whole
      obtain ⟨f, rest, e, -⟩ := whole
      rw [e]
      constructor
      · intro h
        cases h
      · intro h
        cases h
  | some p =>
      rw [hr] at whole
      rw [show document _ = .ok (some p) [] from whole]
      simp

/-- The comments of a written rule set its records. -/
theorem foldlM_comments_render (h : r.check = .ok ())
    (sizes : ∀ s ∈ r.preorder, s.children.length ≤ UInt64.size) :
    (comments (o.render r)).foldlM (applyComment (o.render r)) r.bare =
      .ok (if o.withRecords then r else r.bare) := by
  obtain ⟨before, after, frame⟩ := exists_framed (o := o) h
  refine foldlM_applyComment (o.render r) frame.notes_eq ?_ ?_
  · intro record hr i hi
    split at hr
    · exact (Rule.mem_path_records sizes record hr i hi).resolve_left List.not_mem_nil
    · cases hr
  · split
    · exact Rule.annotateAll_records r
    · rfl

/-- **A written rule reads back as itself just if no call in it is taken for a keyword**, without
its records if none are written. -/
theorem parse_print_iff {text : String} (h : print r o = .ok text)
    (payloads : ∀ name payload note, Rule.atom (.custom name payload) note ∈ r.preorder →
      payload.value.nesting ≤ Json.depthLimit)
    (sizes : ∀ s ∈ r.preorder, s.children.length ≤ UInt64.size) :
    parse text = .ok (some (if o.withRecords then r else r.bare)) ↔ r.Distinct := by
  obtain ⟨hd, hc, rfl⟩ := print_eq_ok_iff.mp h
  have reads {q : Rule} : readStructure (o.render r) = .ok (some q) ↔ r.reread = some q :=
    readStructure_render hc payloads hd
  rw [← Rule.reread_eq_bare_iff]
  constructor
  · intro hp
    obtain ⟨q, hq, e⟩ := readStructure_of_parse hp
    rw [String.toList_ofList] at hq
    have again := reads.mp hq
    rw [again, ← Rule.bare_reread again, ← e]
    split
    · rfl
    · rw [Rule.bare_bare]
  · intro hr
    rw [parse, String.toList_ofList, read, reads.mpr hr]
    show (do return some (← (comments (o.render r)).foldlM (applyComment (o.render r)) r.bare)) = _
    rw [foldlM_comments_render hc sizes]
    rfl

/-- Calls that are named like keywords as a later member, under `NOT` and in a group of their
own. -/
theorem parse_print_iff_calls :
    let call (name field : String) := Rule.atom (.call name [⟨.string field, .fieldReference⟩]) none
    let r := Rule.group .and [call "f" "a", call "OR" "b", .group .not [call "Xor" "c"],
      .group .implies [call "and" "d"]]
    ∃ text, print r ⟨true, 2, true, .inline⟩ = .ok text ∧ parse text = .ok (some r) := by
  intro call r
  refine ⟨_, rfl, (parse_print_iff (r := r) (o := ⟨true, 2, true, .inline⟩) rfl ?_ ?_).mpr ?_⟩
  · intro name payload note h
    simp [r, call, Rule.group, Rule.preorder, Rule.preorderAll] at h
  · intro s h
    simp only [r, call, Rule.group, Rule.preorder, Rule.preorderAll, List.mem_cons,
      List.not_mem_nil, or_false, List.append_nil, List.cons_append, List.nil_append] at h
    rcases h with rfl | rfl | rfl | rfl | rfl | rfl | rfl <;> decide
  · have ofCall (name field : String) (h : Connective.ofKeyword? name.toList ≠ some .not) :
        (call name field).Distinct := Rule.distinct_atom.mpr h
    have ofSole (op : Connective) {m : Rule} (h : m.Distinct) : (Rule.group op [m]).Distinct :=
      Rule.distinct_junction.mpr ⟨rfl, by simpa using h⟩
    refine Rule.distinct_junction.mpr ⟨by decide, ?_⟩
    simp only [List.forall_mem_cons]
    exact ⟨ofCall "f" "a" (by decide), ofCall "OR" "b" (by decide),
      ofSole .not (ofCall "Xor" "c" (by decide)), ofSole .implies (ofCall "and" "d" (by decide)),
      nofun⟩

/-- A call named `NOT` is written, and its text is refused. -/
theorem parse_print_negation :
    let r := Rule.atom (.call "NOT" [⟨.string "a", .fieldReference⟩]) none
    print r ⟨true, 2, true, .inline⟩ = .ok "NOT(a)" ∧ ∃ e, parse "NOT(a)" = .error e :=
  ⟨rfl, _, rfl⟩

end Dsl

end Rulebook
