import Rulebook.Proofs.Dsl.Padding
import Rulebook.Proofs.Dsl.RoundTrip
import Rulebook.Proofs.Lint.Agreement

/-!
# Rulebook — Proofs — Dsl — Documents

A text is read as a rule if its first expression ends where the text does (`document_eq_some_iff`),
and the texts of its record comments then set their records, wherever they stand
(`read_eq_ok_some_iff`).  So all that is to be said of two texts is said of their expressions and of
their records, and what is read from two texts whose lexemes go together goes together
(`document_of_aligned`).
-/

namespace Rulebook.Dsl

open Grammar

variable {cs ds : List Char} {r : Rule}

/-! ### Records -/

/-- Sets the diagnostic record that the text of a record comment holds. -/
def setRecord (r : Rule) (body : List Char) : Option Rule := do
  let record ← PathRecord.read? body
  r.annotate (some record.metadata) record.path

/-- A comment is applied exactly if the record that it holds, if any, can be set. -/
theorem applyComment_eq_ok_iff {text : List Char} {c : Comment} {r q : Rule} :
    applyComment text r c = .ok q ↔ c.record?.elim (some r) (setRecord r) = some q := by
  rw [applyComment]
  cases hc : c.record? with
  | none => simp
  | some body =>
      cases hb : PathRecord.read? body with
      | none => simp [setRecord, hb]
      | some record =>
          cases ha : r.annotate (some record.metadata) record.path <;> simp [setRecord, hb, ha]

/-- Comments are applied exactly if the records that they hold can be set. -/
theorem foldlM_applyComment_iff {text : List Char} {found : List Comment} {r q : Rule} :
    found.foldlM (applyComment text) r = .ok q ↔
      (found.filterMap Comment.record?).foldlM setRecord r = some q := by
  induction found generalizing r with
  | nil => simp [pure, Except.pure]
  | cons c found ih =>
      rw [List.foldlM_cons, bind_eq_ok_iff, List.filterMap_cons]
      simp only [applyComment_eq_ok_iff, ih]
      cases c.record? with
      | none => simp
      | some body => simp [List.foldlM_cons, Option.bind_eq_some_iff]

/-- What one record preserves is preserved by all of them. -/
theorem foldlM_setRecord {R : Rule → Rule → Prop} {found : List (List Char)}
    (hR : ∀ body ∈ found, ∀ r q r', R r q → setRecord r body = some r' →
      ∃ q', setRecord q body = some q' ∧ R r' q') {r q r' : Rule} (h : R r q)
    (hs : found.foldlM setRecord r = some r') : ∃ q', found.foldlM setRecord q = some q' ∧ R r' q' := by
  induction found generalizing r q with
  | nil =>
      cases hs
      exact ⟨q, rfl, h⟩
  | cons body found ih =>
      obtain ⟨first, later⟩ := List.forall_mem_cons.mp hR
      rw [List.foldlM_cons] at hs
      obtain ⟨a, ha, hs⟩ := Option.bind_eq_some_iff.mp hs
      obtain ⟨b, hb, hab⟩ := first r q a h ha
      obtain ⟨q', hq, hr⟩ := ih later hab hs
      exact ⟨q', by rw [List.foldlM_cons, hb]; exact hq, hr⟩

theorem forall₂_of_bareAll_eq {rs qs : List Rule} (h : Rule.bareAll qs = Rule.bareAll rs) :
    List.Forall₂ (fun r q => q.bare = r.bare) rs qs := by
  induction rs generalizing qs with
  | nil =>
      cases qs with
      | nil => exact .nil
      | cons q qs => cases h
  | cons r rs ih =>
      cases qs with
      | nil => cases h
      | cons q qs =>
          obtain ⟨first, later⟩ := List.cons.inj h
          exact .cons first (ih later)

/-- There is a place for a record whatever the other records are. -/
theorem annotate_of_bare_eq {n : Option Metadata} {path : List Nat} {r q r' : Rule}
    (h : q.bare = r.bare) (ha : r.annotate n path = some r') : ∃ q', q.annotate n path = some q' := by
  induction path generalizing r q r' with
  | nil => exact ⟨q.withNote n, rfl⟩
  | cons i path ih =>
      cases r with
      | atom a note => cases ha
      | scope s body note =>
          rw [Rule.annotate] at ha
          split at ha
          · obtain ⟨b, hb, rfl⟩ := Option.map_eq_some_iff.mp ha
            cases q with
            | scope t body' note' =>
                obtain ⟨-, hb', -⟩ := Rule.scope.inj h
                obtain ⟨c, hc⟩ := ih hb' hb
                exact ⟨_, by rw [Rule.annotate, if_pos ‹_›, hc]; rfl⟩
            | _ => cases h
          · cases ha
      | junction j members note =>
          obtain ⟨ms, hms, rfl⟩ := Option.map_eq_some_iff.mp ha
          cases q with
          | junction k members' note' =>
              obtain ⟨-, hm, -⟩ := Rule.junction.inj h
              have each (a b a' : Rule) (hb : b.bare = a.bare) (ha : a.annotate n path = some a') :
                  ∃ b', b.annotate n path = some b' ∧ b'.bare = a'.bare := by
                obtain ⟨b', hb'⟩ := ih hb ha
                exact ⟨b', hb', by rw [Rule.bare_annotate hb', hb, Rule.bare_annotate ha]⟩
              obtain ⟨ms', hms', -⟩ := Rule.updateAt_forall₂ each (forall₂_of_bareAll_eq hm) hms
              exact ⟨_, by rw [Rule.annotate, hms']; rfl⟩
          | _ => cases h

/-- Some of the records can be set where all of them can. -/
theorem exists_foldlM_setRecord {found kept : List (List Char)} (hk : kept.Sublist found)
    {r q r' : Rule} (h : q.bare = r.bare) (hs : found.foldlM setRecord r = some r') :
    ∃ q', kept.foldlM setRecord q = some q' := by
  induction hk generalizing r q with
  | slnil => exact ⟨q, rfl⟩
  | @cons kept found body hk ih =>
      rw [List.foldlM_cons] at hs
      obtain ⟨a, ha, hs⟩ := Option.bind_eq_some_iff.mp hs
      obtain ⟨record, -, ha⟩ := Option.bind_eq_some_iff.mp ha
      exact ih (h.trans (Rule.bare_annotate ha).symm) hs
  | @cons_cons kept found body hk ih =>
      rw [List.foldlM_cons] at hs
      obtain ⟨a, ha, hs⟩ := Option.bind_eq_some_iff.mp hs
      obtain ⟨record, hb, ha⟩ := Option.bind_eq_some_iff.mp ha
      obtain ⟨b, hb'⟩ := annotate_of_bare_eq h ha
      obtain ⟨q', hq⟩ := ih (by rw [Rule.bare_annotate hb', h, Rule.bare_annotate ha]) hs
      refine ⟨q', ?_⟩
      rw [List.foldlM_cons, setRecord, hb]
      exact Option.bind_eq_some_iff.mpr ⟨b, hb', hq⟩

theorem read_eq_ok_none_iff {text : List Char} :
    read text = .ok none ↔ readStructure text = .ok none := by
  rw [read, bind_eq_ok_iff]
  constructor
  · rintro ⟨o, hs, h⟩
    cases o with
    | none => exact hs
    | some q =>
        obtain ⟨_, -, h⟩ := bind_eq_ok_iff.mp h
        cases h
  · exact fun hs => ⟨none, hs, rfl⟩

/-- Where the comments stand makes no difference to what is read. -/
theorem read_eq_ok_some_iff {text : List Char} {r : Rule} : read text = .ok (some r) ↔
    ∃ q, readStructure text = .ok (some q) ∧ (recordTexts text).foldlM setRecord q = some r := by
  rw [read, bind_eq_ok_iff]
  constructor
  · rintro ⟨o, hs, h⟩
    cases o with
    | none => cases h
    | some q =>
        obtain ⟨r', hr, h⟩ := bind_eq_ok_iff.mp h
        cases h
        rw [foldlM_applyComment_iff, filterMap_record?] at hr
        exact ⟨q, hs, hr⟩
  · rintro ⟨q, hs, hr⟩
    rw [← filterMap_record?, ← @foldlM_applyComment_iff text] at hr
    exact ⟨some q, hs, bind_eq_ok_iff.mpr ⟨r, hr, rfl⟩⟩

/-! ### Whole texts -/

theorem readStructure_eq_ok_iff {o : Option Rule} :
    readStructure cs = .ok o ↔ document cs = .ok o [] := by
  refine ⟨document_of_readStructure, fun h => ?_⟩
  rw [readStructure, h]

theorem exists_readStructure {text : List Char} {o : Option Rule} (h : read text = .ok o) :
    ∃ q, readStructure text = .ok q := by
  obtain ⟨q, hq, -⟩ := bind_eq_ok_iff.mp h
  exact ⟨q, hq⟩

/-- Whatever a text is read as is what the grammar reads, records apart. -/
theorem exists_bare_readStructure {text : String} {o : Option Rule} (h : parse text = .ok o) :
    ∃ q, readStructure text.toList = .ok q ∧ q.map Rule.bare = o.map Rule.bare := by
  cases o with
  | none => exact ⟨none, read_eq_ok_none_iff.mp h, rfl⟩
  | some r =>
      obtain ⟨q, hq, e⟩ := readStructure_of_parse h
      exact ⟨some q, hq, congrArg some e.symm⟩

theorem document_of_nil (h : skipTrivia cs = []) : document cs = .ok none [] := by
  refine (trivia_bind _ cs).trans ?_
  rw [h]

/-- A text holds a rule if its first expression goes on to the end, blanks and comments apart. -/
theorem document_eq_some_iff : document cs = .ok (some r) [] ↔
    skipTrivia cs ≠ [] ∧ ∃ rest, topExpression (skipTrivia cs) = .ok r rest ∧
      skipTrivia rest = [] := by
  cases e : skipTrivia cs with
  | nil => simp [document_of_nil e]
  | cons c t =>
      rw [document_of_cons e]
      constructor
      · intro h
        obtain ⟨q, rest, hq, h⟩ := bind_eq_ok h
        rw [trivia_bind] at h
        cases hs : skipTrivia rest with
        | nil =>
            rw [hs] at h
            cases h
            exact ⟨List.cons_ne_nil c t, rest, hq, hs⟩
        | cons d u =>
            rw [hs] at h
            cases h
      · rintro ⟨-, rest, hq, hs⟩
        rw [bind_ok hq, trivia_bind, hs]
        rfl

theorem document_eq_none_iff : document cs = .ok none [] ↔ skipTrivia cs = [] := by
  refine ⟨fun h => ?_, document_of_nil⟩
  cases e : skipTrivia cs with
  | nil => rfl
  | cons c t =>
      rw [document_of_cons e] at h
      obtain ⟨q, rest, -, h⟩ := bind_eq_ok h
      cases h

theorem topExpression_skipTrivia (cs : List Char) : topExpression (skipTrivia cs) =
    implication (unary (textNestingLimit - 1)) (skipTrivia cs) := by
  refine (expression_some _ _).trans ?_
  rw [skipTrivia_skipTrivia]

/-- Without records a text is what the grammar makes of it. -/
theorem parse_eq_some_iff {text : String} (h : recordTexts text.toList = []) :
    parse text = .ok (some r) ↔ document text.toList = .ok (some r) [] := by
  rw [parse, read_eq_ok_some_iff, h]
  simp [readStructure_eq_ok_iff]

/-! ### Texts whose lexemes go together -/

/-- **What is read from texts whose lexemes go together goes together.** -/
theorem document_of_aligned {B : Bridge} {P : Bool → Bool → Rule → Rule → Prop} {i : Bool}
    (hP : Fits B P) (ht : B.tail = []) (h : B.Aligned false i 0 cs ds)
    (hd : document cs = .ok (some r) []) :
    ∃ q j, document ds = .ok (some q) [] ∧ P i j r q ∧ B.ends j := by
  obtain ⟨hne, rest, hr, he⟩ := document_eq_some_iff.mp hd
  rw [topExpression_skipTrivia] at hr
  have plain : Plain B.tail := ht ▸ plain_of_ends Text.startsOutside_nil
  have operand (k : Nat) : Operand B P False 0 (implication (unary k)) (implication (unary k)) :=
    (operand_unary hP (Nat.lt_irrefl k) 0).implication hP fun _ => plain
  have begins : B.Begins i 0 cs ds := by
    obtain facing | ⟨-, -, nothing, -⟩ | ⟨-, gate⟩ := h.cases
    · exact .inl facing
    · exact absurd nothing hne
    · exact .inr gate
  have alive : ¬B.Dead rest := by
    rintro ⟨-, mid, w, e, hw, -⟩
    obtain ⟨c, t, rfl, -⟩ := exists_cons_of_ofKeyword? hw
    rw [he] at e
    cases e
  obtain ⟨q, rest', hq, j, hp, settled⟩ | ⟨deep, -⟩ :=
    Grammar.tracks_ok ((operand _).tracks i _ _ begins.skip) hr alive
  · obtain ⟨ends, last⟩ := settled.tail_of_nil he
    rw [← topExpression_skipTrivia] at hq
    refine ⟨q, j, document_eq_some_iff.mpr ⟨fun nothing => ?_, rest', hq, last.trans ht⟩, hp, ends⟩
    -- no operand is read where the second text ends
    obtain ⟨f, t, fails⟩ := (operand _).stops (skipTrivia ds)
      ((skipTrivia_skipTrivia ds).trans nothing)
    rw [topExpression_skipTrivia, fails] at hq
    cases hq
  · exact deep.elim

end Rulebook.Dsl
