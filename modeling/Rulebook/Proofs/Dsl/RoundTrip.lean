import Rulebook.Dsl.Reader
import Rulebook.Proofs.Dsl.Records

/-!
# Rulebook — Proofs — Dsl — RoundTrip

A written rule reads back as itself, in every layout (`parse_print`).

The text falls into three parts, of which the grammar reads the middle one and skips the others as
comments (`document_yields`).  The comments are then read from the whole text once more: they are
those of the rule's records, in an order in which they can be set one by one.
-/

namespace Rulebook

open Dsl Dsl.Grammar
open Text (startsOutside_cons startsOutside_nil)

namespace Dsl

/-- What a rule's text relies on beyond the printer's check: no plain function is named like a
keyword, and payloads nest no deeper than JSON is read. -/
def Legible : Atom → Prop
  | .call name _ => Connective.ofKeyword? name.toList = none
  | .custom _ payload => payload.value.nesting ≤ Json.depthLimit
  | _ => True

end Dsl

namespace Rule

/-- Every atom in the rule is legible. -/
def Legible (r : Rule) : Prop := ∀ a note, Rule.atom a note ∈ r.preorder → Dsl.Legible a

theorem Legible.shallow {r : Rule} (h : r.Legible) : r.Shallow := fun _ _ note hp => h _ note hp

theorem Legible.keyword?_eq_none {r s : Rule} (h : r.Legible) (hs : s ∈ r.preorder) :
    s.keyword? = none := by
  rw [keyword?.eq_def]
  split
  · exact h _ _ hs
  · rfl

theorem Legible.reread_eq {r : Rule} (h : r.Legible) : r.reread = some r.bare :=
  (reread_eq_bare_iff r).mpr (distinct_of_keyword? fun _ hs => h.keyword?_eq_none hs)

/-! ### Positions -/

theorem path_of_mem_pathRecord {path : List Nat} {note : Option Metadata} {record : PathRecord}
    (h : record ∈ pathRecord path note) : record.path = path := by
  cases note with
  | none => cases h
  | some m => rw [List.mem_singleton.mp h]

/-- A position in the path of a member is one in the path of its rule, or the member's own. -/
theorem mem_or_lt_of_member {path : List Nat} {i k bound : Nat} (h : i ∈ path ++ [k] ∨ i < bound)
    (hk : k < bound) : i ∈ path ∨ i < bound := by
  rcases h with hi | hi
  · rcases List.mem_append.mp hi with hi | hi
    · exact .inl hi
    · rw [List.mem_singleton.mp hi]
      exact .inr hk
  · exact .inr hi

mutual

/-- The positions in the path of a record are those of members. -/
theorem mem_path_records : ∀ {r : Rule} {path : List Nat} {bound : Nat},
    (∀ s ∈ r.preorder, s.children.length ≤ bound) →
    ∀ record ∈ r.records path, ∀ i ∈ record.path, i ∈ path ∨ i < bound
  | .atom _ note, path, _, _, record, hr, i, hi => by
      rw [records] at hr
      rw [path_of_mem_pathRecord hr] at hi
      exact .inl hi
  | .scope s body note, path, bound, h, record, hr, i, hi => by
      have one : (scope s body note).children.length ≤ bound := h _ (by rw [preorder]; simp)
      rw [records] at hr
      rcases List.mem_append.mp hr with hr | hr
      · have inner := mem_path_records (r := body) (fun t ht => h t (by rw [preorder]; simp [ht]))
          record hr i hi
        exact mem_or_lt_of_member inner one
      · rw [path_of_mem_pathRecord hr] at hi
        exact .inl hi
  | .junction j members note, path, bound, h, record, hr, i, hi => by
      have all : (junction j members note).children.length ≤ bound := h _ (by rw [preorder]; simp)
      rw [records] at hr
      rcases List.mem_append.mp hr with hr | hr
      · exact mem_path_recordsFrom (fun t ht => h t (by rw [preorder]; simp [ht]))
          (by simpa [children] using all) record hr i hi
      · rw [path_of_mem_pathRecord hr] at hi
        exact .inl hi

theorem mem_path_recordsFrom : ∀ {rs : List Rule} {path : List Nat} {k bound : Nat},
    (∀ s ∈ preorderAll rs, s.children.length ≤ bound) → k + rs.length ≤ bound →
    ∀ record ∈ recordsFrom path k rs, ∀ i ∈ record.path, i ∈ path ∨ i < bound
  | [], _, _, _, _, _, _, hr, _, _ => by cases hr
  | r :: rs, path, k, bound, h, hk, record, hr, i, hi => by
      rw [recordsFrom] at hr
      rw [List.length_cons] at hk
      rcases List.mem_append.mp hr with hr | hr
      · have inner := mem_path_records (r := r)
          (fun t ht => h t (by rw [preorderAll]; exact List.mem_append_left _ ht)) record hr i hi
        exact mem_or_lt_of_member inner (by omega)
      · exact mem_path_recordsFrom
          (fun t ht => h t (by rw [preorderAll]; exact List.mem_append_right _ ht)) (by omega)
          record hr i hi

end

end Rule

namespace Dsl

variable {r : Rule} {o : Layout}

/-! ### The grammar -/

theorem skipTrivia_lines (records : List PathRecord) (cs : List Char) :
    skipTrivia (Layout.lines (records.map PathRecord.render) ++ '\n' :: cs) = skipTrivia cs := by
  induction records with
  | nil => exact skipTrivia_lineFeed cs
  | cons record records ih =>
      obtain ⟨body, e, hb⟩ := Layout.onLine_render record
      cases records with
      | nil =>
          rw [List.map_cons, List.map_nil, Layout.lines, e, List.cons_append]
          exact skipTrivia_line hb cs
      | cons next records =>
          rw [List.map_cons, List.map_cons, Layout.lines, e, List.cons_append, List.cons_append,
            List.append_assoc, List.cons_append, skipTrivia_line hb]
          exact ih

theorem skipTrivia_lastLines (records : List PathRecord) :
    skipTrivia (Layout.lines (records.map PathRecord.render)) = [] := by
  induction records with
  | nil => rfl
  | cons record records ih =>
      obtain ⟨body, e, hb⟩ := Layout.onLine_render record
      cases records with
      | nil =>
          rw [List.map_cons, List.map_nil, Layout.lines, e]
          exact skipTrivia_lastLine hb
      | cons next records =>
          rw [List.map_cons, List.map_cons, Layout.lines, e, List.cons_append, skipTrivia_line hb]
          exact ih

/-- Something other than blanks and comments has to be an expression. -/
theorem document_of_cons {cs t : List Char} {c : Char} (h : skipTrivia cs = c :: t) :
    document cs = (do
      let r ← topExpression
      trivia
      return some r : Grammar (Option Rule)) (c :: t) := by
  refine (trivia_bind _ cs).trans ?_
  rw [h]

/-- A rule behind comments is read by the grammar as it is to be read, as long as it has no more
levels than a rule may have and no keyword follows.  What follows the comments behind it is left. -/
theorem document_yields_plain (h : r.check = .ok ()) (hs : r.Shallow) (hd : r.depth ≤ nestingLimit)
    {before after : List Char} (hb : ∀ cs, skipTrivia (before ++ cs) = skipTrivia cs)
    (he : Ends after) (hp : Plain (skipTrivia after)) :
    (document (before ++ (o.lay [] 0 r ++ after))).Yields (r.reread.map some)
      (skipTrivia after) := by
  have levels : 2 * r.depth ≤ textNestingLimit - 1 + 1 := by
    have : textNestingLimit = 2 * nestingLimit := rfl
    have : nestingLimit = 32 := rfl
    omega
  have readable : Layout.Readable o (textNestingLimit - 1) r :=
    ⟨h, Layout.unary_core h hs levels⟩
  have rest := Layout.skipTrivia_inlineRecord o [] 0 r.note after
  have skip := Layout.skipTrivia_core (o := o) h [] 0 (o.inlineRecord [] 0 r.note ++ after)
  have whole : (topExpression (o.core [] 0 r ++ (o.inlineRecord [] 0 r.note ++ after))).Yields
      r.reread (o.inlineRecord [] 0 r.note ++ after) :=
    Layout.expression_core readable [] 0 skip (Layout.ends_inlineRecord o [] 0 r.note he)
      (rest ▸ hp)
  obtain ⟨c, t, e, -⟩ := Layout.exists_core (o := o) h [] 0 (o.inlineRecord [] 0 r.note ++ after)
  rw [document_of_cons (by rw [hb, Layout.lay_eq, List.append_assoc, skip, e]), ← e]
  exact map_yields whole fun q => by rw [trivia_bind, rest, pure_apply]

/-- A rule between comments is read whole. -/
theorem document_yields (h : r.check = .ok ()) (hs : r.Shallow) (hd : r.depth ≤ nestingLimit)
    {before after : List Char} (hb : ∀ cs, skipTrivia (before ++ cs) = skipTrivia cs)
    (he : Ends after) (ha : skipTrivia after = []) :
    (document (before ++ (o.lay [] 0 r ++ after))).Yields (r.reread.map some) [] := by
  have whole := document_yields_plain (o := o) h hs hd hb he (ha ▸ plain_of_ends startsOutside_nil)
  rwa [ha] at whole

/-- What is laid out, with blanks and comments around it, is read as the rule without its records.
-/
theorem document_ok (h : r.check = .ok ()) (hl : r.Legible) (hd : r.depth ≤ nestingLimit)
    {before after : List Char} (hb : ∀ cs, skipTrivia (before ++ cs) = skipTrivia cs)
    (he : Ends after) (ha : skipTrivia after = []) :
    document (before ++ (o.lay [] 0 r ++ after)) = .ok (some r.bare) [] := by
  have whole := document_yields (o := o) h hl.shallow hd hb he ha
  rwa [hl.reread_eq] at whole

/-! ### The comments -/

theorem notes_lines (records : List PathRecord) (cs : List Char) (h : records ≠ []) :
    notes (Layout.lines (records.map PathRecord.render) ++ '\n' :: cs) =
      records.map PathRecord.noteText ++ notes cs := by
  induction records with
  | nil => exact absurd rfl h
  | cons record records ih =>
      cases records with
      | nil =>
          rw [List.map_cons, List.map_nil, Layout.lines, PathRecord.render_eq, List.cons_append]
          exact notes_line (notMem_noteText record) cs
      | cons next records =>
          rw [List.map_cons, List.map_cons, Layout.lines, PathRecord.render_eq, List.cons_append,
            List.cons_append, List.append_assoc, List.cons_append,
            notes_line (notMem_noteText record)]
          exact congrArg _ (ih (List.cons_ne_nil _ _))

theorem notes_lastLines (records : List PathRecord) :
    notes (Layout.lines (records.map PathRecord.render)) = records.map PathRecord.noteText := by
  induction records with
  | nil => rfl
  | cons record records ih =>
      cases records with
      | nil =>
          rw [List.map_cons, List.map_nil, Layout.lines, PathRecord.render_eq]
          exact notes_lastLine (notMem_noteText record)
      | cons next records =>
          rw [List.map_cons, List.map_cons, Layout.lines, PathRecord.render_eq, List.cons_append,
            notes_line (notMem_noteText record)]
          exact congrArg _ ih

/-- Comments with records set these, one after the other. -/
theorem foldlM_applyComment (text : List Char) {found : List Comment} {records : List PathRecord}
    (hf : found.map Comment.text = records.map PathRecord.noteText)
    (hr : ∀ record ∈ records, ∀ i ∈ record.path, i < UInt64.size) {r r' : Rule}
    (h : Rule.annotateAll records r = some r') : found.foldlM (applyComment text) r = .ok r' := by
  induction records generalizing found r with
  | nil =>
      rw [List.map_eq_nil_iff.mp hf]
      cases h
      rfl
  | cons record records ih =>
      cases found with
      | nil => cases hf
      | cons c found =>
          obtain ⟨body, offset⟩ := c
          simp only [List.map_cons, List.cons.injEq] at hf
          obtain ⟨rfl, hf⟩ := hf
          rw [Rule.annotateAll_cons] at h
          obtain ⟨q, hq, h⟩ := Option.bind_eq_some_iff.mp h
          have one : applyComment text r ⟨record.noteText, offset⟩ = .ok q := by
            simp only [applyComment, PathRecord.record?_noteText,
              PathRecord.read?_write (hr record List.mem_cons_self), hq]
          have more := ih hf (fun t ht => hr t (List.mem_cons_of_mem record ht)) h
          rw [List.foldlM_cons, one]
          exact more

theorem detached_eq (o : Layout) (r : Rule) : o.detached r =
    (if o.withRecords && o.place != .inline then r.records [] else []).map PathRecord.render := by
  rw [Layout.detached]
  split <;> rfl

/-- A text around another one: what is in front of it and behind it are blanks and comments, of
which the last one ends with its line, and the comments of the whole are the given ones. -/
structure Framed (inner text : List Char) (found : List (List Char)) (before after : List Char) :
    Prop where
  text_eq : text = before ++ (inner ++ after)
  before_trivia : ∀ cs, skipTrivia (before ++ cs) = skipTrivia cs
  after_ends : Ends after
  after_trivia : skipTrivia after = []
  after_line : ∀ cs, skipTrivia (after ++ '\n' :: cs) = skipTrivia cs
  notes_eq : notes text = found

/-- A text by itself. -/
theorem framed_self {inner : List Char} {found : List (List Char)} (h : Scans inner found) :
    Framed inner inner found [] [] where
  text_eq := (List.append_nil inner).symm
  before_trivia _ := rfl
  after_ends := startsOutside_nil
  after_trivia := rfl
  after_line := skipTrivia_lineFeed
  notes_eq := by
    have whole := h []
    rwa [List.append_nil, show notes [] = [] from rfl, List.append_nil] at whole

/-- A text with its records in lines before it. -/
theorem framed_before {inner : List Char} (h : Scans inner []) {records : List PathRecord}
    (hr : records ≠ []) : Framed inner
      (Layout.lines (records.map PathRecord.render) ++ '\n' :: inner)
      (records.map PathRecord.noteText)
      (Layout.lines (records.map PathRecord.render) ++ ['\n']) [] where
  text_eq := by simp
  before_trivia cs := by
    rw [List.append_assoc]
    exact skipTrivia_lines records cs
  after_ends := startsOutside_nil
  after_trivia := rfl
  after_line := skipTrivia_lineFeed
  notes_eq := by rw [notes_lines records inner hr, (framed_self h).notes_eq, List.append_nil]

/-- A text with its records in lines after it. -/
theorem framed_after {inner : List Char} (h : Scans inner []) (records : List PathRecord) :
    Framed inner (inner ++ '\n' :: Layout.lines (records.map PathRecord.render))
      (records.map PathRecord.noteText) []
      ('\n' :: Layout.lines (records.map PathRecord.render)) where
  text_eq := rfl
  before_trivia _ := rfl
  after_ends := startsOutside_cons (by decide)
  after_trivia := by rw [skipTrivia_lineFeed, skipTrivia_lastLines]
  after_line cs := by rw [List.cons_append, skipTrivia_lineFeed, skipTrivia_lines]
  notes_eq := by
    rw [h, notes_other (by decide) (by decide), notes_lastLines, List.nil_append]

/-- A written rule is its text between two parts of blanks and comments, and the comments of the
whole are those of its records. -/
theorem exists_framed (h : r.check = .ok ()) : ∃ before after,
    Framed (o.lay [] 0 r) (o.render r)
      ((if o.withRecords then r.records [] else []).map PathRecord.noteText) before after := by
  have lay := Scans.lay (o := o) [] 0 h
  have apart := detached_eq o r
  by_cases hw : (o.withRecords && o.place != .inline) = true
  · rw [if_pos hw] at apart
    rw [Bool.and_eq_true, bne_iff_ne] at hw
    have none : foundInline o (r.records []) = [] := by simp [foundInline, hw.2]
    rw [none] at lay
    rw [if_pos hw.1]
    cases hr : r.records [] with
    | nil =>
        have whole : o.render r = o.lay [] 0 r := by rw [Layout.render, apart, hr]; rfl
        rw [whole]
        exact ⟨[], [], framed_self lay⟩
    | cons record records =>
        rw [hr, List.map_cons] at apart
        cases hp : o.place with
        | before =>
            have whole : o.render r = Layout.lines ((record :: records).map PathRecord.render) ++
                '\n' :: o.lay [] 0 r := by
              rw [Layout.render, apart]
              simp only [hp]
              rfl
            rw [whole]
            exact ⟨_, _, framed_before lay (List.cons_ne_nil record records)⟩
        | after =>
            have whole : o.render r = o.lay [] 0 r ++
                '\n' :: Layout.lines ((record :: records).map PathRecord.render) := by
              rw [Layout.render, apart]
              simp only [hp]
              rfl
            rw [whole]
            exact ⟨_, _, framed_after lay (record :: records)⟩
        | inline => exact absurd hp hw.2
  · rw [if_neg hw] at apart
    have whole : o.render r = o.lay [] 0 r := by rw [Layout.render, apart]; rfl
    -- what is not apart is in place, if it is written at all
    have found : foundInline o (r.records []) =
        (if o.withRecords then r.records [] else []).map PathRecord.noteText := by
      rw [foundInline]
      cases hw' : o.withRecords with
      | false => rfl
      | true =>
          have hp : o.place = .inline := by simpa [hw'] using hw
          simp [hp]
    rw [found] at lay
    rw [whole]
    exact ⟨[], [], framed_self lay⟩

/-- **A written rule reads back as itself**, without its records if none are written.

A plain function named like a keyword would read as that keyword, and a payload that nests too deep
would not read as JSON.  The positions in a record are read as words of 64 bits, in which the
members of any list in memory can be counted. -/
theorem parse_print {text : String} (h : print r o = .ok text)
    (calls : ∀ name args note, Rule.atom (.call name args) note ∈ r.preorder →
      Connective.ofKeyword? name.toList = none)
    (payloads : ∀ name payload note, Rule.atom (.custom name payload) note ∈ r.preorder →
      payload.value.nesting ≤ Json.depthLimit)
    (sizes : ∀ s ∈ r.preorder, s.children.length ≤ UInt64.size) :
    parse text = .ok (some (if o.withRecords then r else r.bare)) := by
  have legible : r.Legible := by
    intro a note ha
    cases a with
    | call name args => exact calls name args note ha
    | custom name payload => exact payloads name payload note ha
    | _ => exact True.intro
  obtain ⟨hd, hc, rfl⟩ : r.depth ≤ nestingLimit ∧ r.check = .ok () ∧
      text = String.ofList (o.render r) := by
    rw [print, write] at h
    split at h
    · cases h
    · rename_i hd
      cases hc : r.check with
      | error e => rw [hc] at h; cases h
      | ok u => rw [hc] at h; cases h; exact ⟨Nat.le_of_not_lt hd, rfl, rfl⟩
  obtain ⟨before, after, frame⟩ := exists_framed (o := o) hc
  have structure_ok : readStructure (o.render r) = .ok (some r.bare) := by
    rw [readStructure, frame.text_eq, document_ok hc legible hd frame.before_trivia
      frame.after_ends frame.after_trivia]
  have set : Rule.annotateAll (if o.withRecords then r.records [] else []) r.bare =
      some (if o.withRecords then r else r.bare) := by
    split
    · exact Rule.annotateAll_records r
    · rfl
  have positions : ∀ record ∈ (if o.withRecords then r.records [] else []),
      ∀ i ∈ record.path, i < UInt64.size := by
    intro record hr i hi
    split at hr
    · exact (Rule.mem_path_records sizes record hr i hi).resolve_left (List.not_mem_nil)
    · cases hr
  have noted := foldlM_applyComment (o.render r) frame.notes_eq positions set
  rw [parse, String.toList_ofList, read, structure_ok]
  show (do return some (← (comments (o.render r)).foldlM (applyComment (o.render r)) r.bare)) = _
  rw [noted]
  rfl

/-- With a quote and a `#` in a string, a field that reads like a literal, and a record in place. -/
theorem parse_print_guarded :
    let call := Rule.atom (.call "f" [⟨.string "true", .fieldReference⟩, ⟨.string "#\"", .literal⟩])
      (some ⟨some "E1", none, some .warning⟩)
    let r := Rule.junction (.connective .not)
      [.scope (.guarded .ifDefined "a") call none,
        .atom (.custom "k" (.ofJson (.array [.int 1]))) none]
      none
    ∃ text, print r ⟨true, 4, true, .inline⟩ = .ok text ∧ parse text = .ok (some r) := by
  intro call r
  have all : r.preorder = [r, .scope (.guarded .ifDefined "a") call none, call,
      .atom (.custom "k" (.ofJson (.array [.int 1]))) none] := rfl
  refine ⟨_, rfl, parse_print (r := r) (o := ⟨true, 4, true, .inline⟩) rfl ?_ ?_ ?_⟩
  · intro name args note h
    obtain ⟨⟨rfl, -⟩, -⟩ : (name = "f" ∧ _) ∧ _ := by simpa [all, r, call] using h
    decide
  · intro name payload note h
    obtain ⟨⟨-, rfl⟩, -⟩ : (name = "k" ∧ payload = .ofJson (.array [.int 1])) ∧ _ := by
      simpa [all, r, call] using h
    decide
  · intro s h
    rw [all] at h
    simp only [List.mem_cons, List.not_mem_nil, or_false] at h
    rcases h with rfl | rfl | rfl | rfl <;> decide

end Dsl

end Rulebook
