import Rulebook.Proofs.Dsl.Produced
import Rulebook.Proofs.Rule.Places

/-!
# Rulebook — Proofs — Dsl — Marked

Which comments matter.  A comment is *marked* if its first word begins with `@meta`.  What is read
from a text is what the grammar reads with the records of the marked comments, each at its path;
the last one for a path counts, wherever the comments stand, and all other comments might as well be
missing.  After the grammar, reading fails at a marked comment only, for a record that is none or
for a path that leads out of the rule.

The marker need not be the whole of the first word, so that a comment about `@metadata` is taken for
a record and spoils the text (`parse_metadata`).  As long as no first word goes on behind the
marker, the marked comments are those with the first word `@meta`.

* `foldlM_marked`: setting the records of marked comments.
* `parse_marked`: whole texts.
-/

namespace Rulebook.Dsl

namespace Comment

/-- The first word of a comment. -/
def firstWord (c : Comment) : List Char :=
  (Text.trimStart c.text).takeWhile fun d => !Text.isBlank d

/-- Whether the first word begins with the marker of records. -/
def isMarked (c : Comment) : Bool := recordMarker.isPrefixOf c.firstWord

/-- The record of a marked comment, if it holds one. -/
def pathRecord? (c : Comment) : Option PathRecord := c.record?.bind PathRecord.read?

/-- A comment is marked exactly if it starts with the mark of a record, blanks in front apart. -/
theorem isMarked_iff {c : Comment} :
    c.isMarked = true ↔ recordMarker <+: Text.trimStart c.text := by
  have solid : ∀ d ∈ recordMarker, (!Text.isBlank d) = true := List.all_eq_true.mp rfl
  rw [isMarked, List.isPrefixOf_iff_prefix, firstWord]
  constructor
  · exact fun h => h.trans (List.takeWhile_prefix _)
  · rintro ⟨t, e⟩
    rw [← e, List.takeWhile_append_of_pos solid]
    exact List.prefix_append _ _

theorem isSome_record? (c : Comment) : c.record?.isSome = c.isMarked := by
  rw [Bool.eq_iff_iff, isMarked_iff, record?, ← List.isPrefixOf_iff_prefix]
  split <;> simp_all

end Comment

variable {text : List Char} {r : Rule} {c : Comment} {found : List Comment}

/-- A comment that is not marked changes nothing. -/
theorem applyComment_unmarked (h : c.isMarked = false) : applyComment text r c = .ok r := by
  rw [← c.isSome_record?, Option.isSome_eq_false_iff, Option.isNone_iff_eq_none] at h
  rw [applyComment, h]

theorem foldlM_filter_isMarked (text : List Char) (found : List Comment) (r : Rule) :
    (found.filter Comment.isMarked).foldlM (applyComment text) r =
      found.foldlM (applyComment text) r := by
  induction found generalizing r with
  | nil => rfl
  | cons c found ih =>
      cases hm : c.isMarked with
      | true =>
          rw [List.filter_cons_of_pos hm, List.foldlM_cons, List.foldlM_cons]
          simp only [ih]
      | false =>
          rw [List.filter_cons_of_neg (by simp [hm]), List.foldlM_cons, applyComment_unmarked hm]
          exact ih r

/-- As long as no first word goes on behind the marker, it is the first word. -/
theorem filter_isMarked
    (h : ∀ c ∈ found, recordMarker <+: c.firstWord → c.firstWord = recordMarker) :
    found.filter Comment.isMarked = found.filter fun c => c.firstWord = recordMarker := by
  refine List.filter_congr fun c hc => ?_
  rw [Bool.eq_iff_iff, decide_eq_true_eq, Comment.isMarked, List.isPrefixOf_iff_prefix]
  exact ⟨h c hc, fun e => e ▸ List.prefix_refl _⟩

/-- The comment holds no record, or one for a place outside of the rule, and the error says which
and where. -/
def Spoils (text : List Char) (r : Rule) (c : Comment) (e : ParseError) : Prop :=
  e.location = Text.locate text c.offset ∧
    (c.pathRecord? = none ∧ e.fault = .malformedRecord ∨
      ∃ a, c.pathRecord? = some a ∧ r.descendant? a.path = none ∧ e.fault = .unknownPath a.path)

/-- The comment holds a record for a place in the rule. -/
def Places (r : Rule) (c : Comment) : Prop :=
  ∃ a, c.pathRecord? = some a ∧ ∃ p, r.descendant? a.path = some p

theorem Spoils.not_places {e : ParseError} (h : Spoils text r c e) : ¬ Places r c := by
  rintro ⟨a, ha, p, hp⟩
  rcases h.2 with ⟨none, -⟩ | ⟨b, hb, outside, -⟩
  · rw [ha] at none
    cases none
  · obtain rfl := Option.some.inj (ha.symm.trans hb)
    rw [hp] at outside
    cases outside

theorem spoils_of_bare_eq {q : Rule} {e : ParseError} (he : r.bare = q.bare)
    (h : Spoils text r c e) : Spoils text q c e := by
  refine ⟨h.1, h.2.imp_right ?_⟩
  rintro ⟨a, ha, outside, fault⟩
  refine ⟨a, ha, ?_, fault⟩
  rw [Option.eq_none_iff_forall_ne_some] at outside ⊢
  intro p hp
  obtain ⟨p', hp'⟩ := (Rule.exists_descendant?_of_bare_eq he).mpr ⟨p, hp⟩
  exact outside p' hp'

/-- A marked comment spoils the text, or its record is set. -/
theorem applyComment_marked (text : List Char) (r : Rule) (h : c.isMarked = true) :
    (∃ e, applyComment text r c = .error e ∧ Spoils text r c e) ∨
      ∃ a r', c.pathRecord? = some a ∧ r.annotate (some a.metadata) a.path = some r' ∧
        applyComment text r c = .ok r' := by
  rw [← c.isSome_record?, Option.isSome_iff_exists] at h
  obtain ⟨body, hb⟩ := h
  have held : c.pathRecord? = PathRecord.read? body := by rw [Comment.pathRecord?, hb]; rfl
  rw [applyComment, hb]
  dsimp only
  cases ha : PathRecord.read? body with
  | none => exact .inl ⟨_, rfl, rfl, .inl ⟨held.trans ha, rfl⟩⟩
  | some a =>
      dsimp only
      cases hr : r.annotate (some a.metadata) a.path with
      | some r' => exact .inr ⟨a, r', held.trans ha, hr, rfl⟩
      | none =>
          refine .inl ⟨_, rfl, rfl, .inr ⟨a, held.trans ha, ?_, rfl⟩⟩
          rw [Option.eq_none_iff_forall_ne_some]
          intro p hp
          obtain ⟨r', hr'⟩ := Rule.exists_annotate_iff.mpr ⟨p, hp⟩
          rw [hr] at hr'
          cases hr'

/-- **Marked comments set their records one after the other**, up to the first that spoils the
text. -/
theorem foldlM_marked (hm : ∀ c ∈ found, c.isMarked = true) (r : Rule) :
    (∃ c ∈ found, ∃ e, found.foldlM (applyComment text) r = .error e ∧ Spoils text r c e) ∨
      ((∀ c ∈ found, Places r c) ∧ ∃ r', found.foldlM (applyComment text) r = .ok r' ∧
        Rule.annotateAll (found.filterMap Comment.pathRecord?) r = some r') := by
  induction found generalizing r with
  | nil => exact .inr ⟨List.forall_mem_nil _, r, rfl, rfl⟩
  | cons c found ih =>
      obtain ⟨marked, later⟩ := List.forall_mem_cons.mp hm
      rw [List.foldlM_cons]
      rcases applyComment_marked text r marked with ⟨e, he, spoils⟩ | ⟨a, q, ha, hq, hc⟩
      · exact .inl ⟨c, List.mem_cons_self, e, by rw [he]; rfl, spoils⟩
      have same : q.bare = r.bare := Rule.bare_annotate hq
      rw [hc, List.filterMap_cons_some ha, Rule.annotateAll_cons, hq]
      rcases ih later q with ⟨d, hd, e, he, spoils⟩ | ⟨places, r', hr, set⟩
      · exact .inl ⟨d, List.mem_cons_of_mem c hd, e, he, spoils_of_bare_eq same spoils⟩
      · refine .inr ⟨List.forall_mem_cons.mpr ⟨?_, fun d hd => ?_⟩, r', hr, set⟩
        · exact ⟨a, ha, Rule.exists_annotate_iff.mp ⟨q, hq⟩⟩
        · obtain ⟨b, hb, inside⟩ := places d hd
          exact ⟨b, hb, (Rule.exists_descendant?_of_bare_eq same).mp inside⟩

/-! ### Whole texts -/

theorem parse_of_readStructure {text : String} {q : Rule}
    (h : readStructure text.toList = .ok (some q)) :
    parse text = ((comments text.toList).foldlM (applyComment text.toList) q).map some := by
  rw [parse, read, h]
  rfl

/-- **Marked comments and only they matter.**  For a text that the grammar reads as `q`:
* the other comments might as well be missing;
* the text is read if every marked comment holds a record for a place in `q`;
* what is read is `q` with the last record for each path, and no record where there is none;
* an error is that of a marked comment that does not hold such a record;
* the marked comments are those with the first word `@meta`, if no first word goes on behind it. -/
theorem parse_marked {text : String} {q : Rule} (h : readStructure text.toList = .ok (some q)) :
    let marked := (comments text.toList).filter Comment.isMarked
    parse text = (marked.foldlM (applyComment text.toList) q).map some ∧
      ((∃ r, parse text = .ok (some r)) ↔ ∀ c ∈ marked, Places q c) ∧
      (∀ r, parse text = .ok (some r) → r.bare = q ∧ ∀ path p, r.descendant? path = some p →
        p.note = Rule.lastRecord (marked.filterMap Comment.pathRecord?) path) ∧
      (∀ e, parse text = .error e → ∃ c ∈ marked, Spoils text.toList q c e) ∧
      ((∀ c ∈ comments text.toList, recordMarker <+: c.firstWord → c.firstWord = recordMarker) →
        marked = (comments text.toList).filter fun c => c.firstWord = recordMarker) := by
  intro marked
  have read : parse text = (marked.foldlM (applyComment text.toList) q).map some := by
    rw [parse_of_readStructure h, foldlM_filter_isMarked]
  have whole : ∀ c ∈ marked, c.isMarked = true := fun c hc => (List.mem_filter.mp hc).2
  refine ⟨read, ?_⟩
  rcases foldlM_marked whole q with ⟨c, hc, e, he, spoils⟩ | ⟨places, r, hr, set⟩
  · rw [read, he]
    refine ⟨⟨nofun, fun all => absurd (all c hc) spoils.not_places⟩, nofun, fun d hd => ?_,
      filter_isMarked⟩
    obtain rfl := Except.error.inj hd
    exact ⟨c, hc, spoils⟩
  · rw [read, hr]
    refine ⟨⟨fun _ => places, fun _ => ⟨r, rfl⟩⟩, fun r' hr' => ?_, nofun, filter_isMarked⟩
    obtain rfl := Option.some.inj (Except.ok.inj hr')
    have bare : q.bare = q := (produced_of_readStructure h).bare
    obtain ⟨same, notes⟩ := (Rule.annotateAll_spec _ q).2 r set
    refine ⟨same.trans bare, fun path p hp => ?_⟩
    have note := notes path
    rw [hp] at note
    obtain ⟨s, hs, e⟩ := Option.map_eq_some_iff.mp note.symm
    rw [← e, Rule.note_of_bare_eq_self bare hs, Option.or_none]

/-- The later of two records counts, and a comment without a marker does not. -/
theorem parse_marked_twice :
    let text := "a == 1 # x\n#@meta \x7b\"path\":[]\x7d\n#@meta \x7b\"path\":[],\"code\":\"B\"\x7d"
    let records := ((comments text.toList).filter Comment.isMarked).filterMap Comment.pathRecord?
    Rule.lastRecord records [] = some ⟨some "B", none, none⟩ ∧
      ∃ r, parse text = .ok (some r) ∧ r.bare = .compare "a" .equals (.int 1) ∧
        r.note = Rule.lastRecord records [] := by
  have structured : readStructure
      "a == 1 # x\n#@meta \x7b\"path\":[]\x7d\n#@meta \x7b\"path\":[],\"code\":\"B\"\x7d".toList =
      .ok (some (.compare "a" .equals (.int 1))) := rfl
  intro text records
  have accepted : (parse text).toOption.join.isSome = true := by decide +kernel
  obtain ⟨-, -, notes, -⟩ := parse_marked structured
  refine ⟨by decide +kernel, ?_⟩
  cases hr : parse text with
  | error e =>
      rw [hr] at accepted
      cases accepted
  | ok o =>
      cases o with
      | none =>
          rw [hr] at accepted
          cases accepted
      | some r =>
          obtain ⟨bare, last⟩ := notes r hr
          exact ⟨r, rfl, bare, last [] r rfl⟩

/-- A comment that only begins like a marked one is no record, and still the text is refused. -/
theorem parse_metadata :
    let text := "a == 1 # @metadata"
    readStructure text.toList = .ok (some (.compare "a" .equals (.int 1))) ∧
      (∀ c ∈ comments text.toList, c.firstWord ≠ recordMarker) ∧
      parse text = .error ⟨.malformedRecord, ⟨1, 8⟩⟩ :=
  ⟨rfl, by decide, rfl⟩

end Rulebook.Dsl
