import Rulebook.Proofs.Dsl.Documents
import Rulebook.Proofs.Lint.Checks
import Rulebook.Proofs.Lint.Tokenized

/-!
# Rulebook — Proofs — Lint — Casing

The fixes of keywords that are not in upper case.  A word with the letters of a keyword is left if
what follows makes it the name of something: a comparison, or an opening parenthesis right behind
it.  Every other one is put in upper case.

The grammar reads a keyword in whatever letters it is written, but such a word may be a name to it
all the same, in a call: that of a field, of a parameter, or of a function with a blank in front of
its parenthesis.  No condition is on such a field, for the comparison would come next.  So the fixed
text is read, and what is read differs at most in names of calls (`parse_raised`).
-/

namespace Rulebook.Lint

open Dsl (Bridge Fits Chained Lexeme recordTexts)

/-- The second name is the first one, or the keyword that the first one is in other letters if that
is one of these words. -/
def Raised (words : List String) (s t : String) : Prop :=
  t = s ∨ s ∈ words ∧ ∃ op, Connective.ofKeyword? s.toList = some op ∧ t = op.keyword

/-- The second text may have a keyword in upper case where the first one has one of these words. -/
def raised (words : List String) : Bridge where
  respells w w' := String.ofList w ∈ words ∧
    ∃ op, Connective.ofKeyword? w = some op ∧ w' = op.keyword.toList
  same_keyword := by
    rintro _ _ ⟨-, op, hw, rfl⟩
    exact ⟨op, hw, Dsl.ofKeyword?_keyword op⟩
  gated := False
  ends _ := True
  tail := []

variable {words : List String}

/-- The names of texts with raised words go together as the raised words do. -/
theorem names_raised : (raised words).Names = Raised words := by
  funext s t
  refine propext ⟨?_, ?_⟩
  · rintro (rfl | ⟨w, _, ⟨here, op, hw, rfl⟩, rfl, rfl⟩)
    · exact .inl rfl
    · exact .inr ⟨here, op, by rwa [id, String.toList_ofList], by rw [id, String.ofList_toList]⟩
  · rintro (rfl | ⟨here, op, hw, rfl⟩)
    · exact .inl rfl
    · exact .inr ⟨s.toList, _, ⟨by rwa [String.ofList_toList], op, hw, rfl⟩,
        by rw [id, String.ofList_toList], by rw [id, String.ofList_toList]⟩

/-- The rules differ in names of calls at most. -/
def PassesRaised (words : List String) (i j : Bool) (r q : Rule) : Prop :=
  i = j ∧ r.Renamed (Raised words) q

/-- What the grammar builds goes along with raising words. -/
theorem fits_raised : Fits (raised words) (PassesRaised words) where
  atom h := ⟨rfl, .atom (names_raised ▸ h) none⟩
  scope h hp := ⟨hp.1, .scope (names_raised ▸ h) hp.2 none⟩
  junction hs :=
    have ⟨same, members⟩ := Dsl.forall₂_of_chained hs
    ⟨same, .junction _ members none⟩
  cancel := False.elim

variable {n offset : Nat} {text cs : List Char} {ts : List Token}

/-! ### Keywords in upper case -/

/-- A token is left, or it is a keyword that names nothing and is put in upper case. -/
theorem editsOf_checkKeywords (text : List Char) (previous : Option Token) (t : Token)
    (ts : List Token) :
    let later := editsOf .lowercaseKeyword (checkKeywords text (some t) ts)
    editsOf .lowercaseKeyword (checkKeywords text previous (t :: ts)) = later ∨
      ∃ op, t.connective? = some op ∧ namesSomething t ts.head? = false ∧
        editsOf .lowercaseKeyword (checkKeywords text previous (t :: ts)) =
          ⟨t.start, t.stop, op.keyword⟩ :: later := by
  intro later
  rw [checkKeywords, editsOf_append]
  split
  · exact .inl rfl
  · rename_i op hop
    split
    · exact .inl rfl
    · rename_i hn
      rw [editsOf_append, editsOf_from (from_checkNegation previous t op ts) (by decide), checkCase]
      split
      · exact .inl rfl
      · exact .inr ⟨op, hop, Bool.eq_false_iff.mpr hn, rfl⟩

/-- What an edit replaces. -/
def Edit.replaced (e : Edit) (text : List Char) : List Char :=
  Text.takeBytes (Text.dropBytes text e.start) (e.stop - e.start)

/-- **A text and the same text with keywords put in upper case** have lexemes that go together, and
the same records. -/
theorem Tokenized.raised (h : Tokenized n offset cs ts) {front : List Char}
    (hf : front ++ cs = text) (ho : Text.width front = offset) (previous : Option Token)
    (hw : ∀ e ∈ editsOf .lowercaseKeyword (checkKeywords text previous ts),
      String.ofList (e.replaced text) ∈ words) :
    ∃ ds, Splices offset cs (editsOf .lowercaseKeyword (checkKeywords text previous ts)) ds ∧
      Resembles cs ds ∧ (∀ inside, (Lint.raised words).Aligned inside false n cs ds) ∧
      recordTexts ds = recordTexts cs := by
  induction h generalizing previous front with
  | nil => exact ⟨[], .done, .refl [], fun _ => .finish trivial rfl rfl, rfl⟩
  | @blank n offset c cs ts hb t ih =>
      obtain ⟨ds, splices, resembles, aligned, records⟩ :=
        @ih (front ++ [c]) (by simpa using hf) (by simp [Text.width, ho]) previous hw
      have blank := Text.isBlank_of_isAsciiBlank hb
      refine ⟨c :: ds, splices.cons, resembles.cons c, fun inside => aligned_blank hb (aligned inside),
        ?_⟩
      rw [Dsl.recordTexts_blank blank, Dsl.recordTexts_blank blank, records]
  | @comment n offset body cs ts hb he t ih =>
      obtain ⟨ds, splices, resembles, aligned, records⟩ :=
        @ih (front ++ '#' :: body) (by simpa using hf) (by rw [Text.width_append, ho]) previous hw
      refine ⟨'#' :: (body ++ ds), splices.keep, resembles.append ('#' :: body),
        fun inside => aligned_comment hb he resembles (aligned inside), ?_⟩
      rw [Dsl.recordTexts_ended hb he, Dsl.recordTexts_ended hb (resembles.lineEnds he), records]
  | @token n m offset l cs ts hs hn t ih =>
      have behind := @ih (front ++ l.text) (by simpa using hf) (by rw [Text.width_append, ho])
        (some (tokenOf l offset))
      obtain e | ⟨op, hop, names, e⟩ := editsOf_checkKeywords text previous (tokenOf l offset) ts
      · rw [e] at hw ⊢
        obtain ⟨ds, splices, resembles, aligned, records⟩ := behind hw
        refine ⟨l.text ++ ds, splices.keep, resembles.append l.text,
          fun inside => aligned_token hs resembles hn (aligned _), ?_⟩
        rw [hs.scans.recordTexts, hs.scans.recordTexts, records]
      · rw [e] at hw ⊢
        obtain ⟨here, later⟩ := List.forall_mem_cons.mp hw
        obtain ⟨ds, splices, resembles, aligned, records⟩ := behind later
        obtain ⟨w, rfl, kw⟩ := exists_word_of_connective? hop
        obtain ⟨c, u, rfl, hc⟩ := Dsl.exists_cons_of_ofKeyword? kw
        have replaced : Edit.replaced ⟨offset, offset + Text.width (c :: u), op.keyword⟩ text =
            c :: u := by
          rw [Edit.replaced, ← hf, ← ho, Nat.add_sub_cancel_left, Text.dropBytes_append]
          exact Text.takeBytes_append _ _
        have keyword := Dsl.ofKeyword?_keyword op
        obtain ⟨d, v, hv, hd⟩ := Dsl.exists_cons_of_ofKeyword? keyword
        have upper : (Lexeme.word op.keyword.toList).Stands ds :=
          ⟨Dsl.isName_of_ofKeyword? keyword, (resembles.admits _ hs).2⟩
        -- what follows makes the word no name of a field
        have plain : ∀ t ∈ ts.head?, t.isComparison = false := by
          intro t ht
          rw [ht, namesSomething] at names
          exact (Bool.or_eq_false_iff.mp names).1
        refine ⟨op.keyword.toList ++ ds, splices.edit (List.cons_ne_nil c u), ?_, fun inside => ?_, ?_⟩
        · rw [hv]
          exact .of_isNameStart hc fun _ e => .inl (Option.some.inj e ▸ hd)
        · exact .lexeme hs.skipTrivia upper.skipTrivia hs upper
            (.respelt ⟨replaced ▸ here, op, kw, rfl⟩ (t.refuses_comparison plain)) hn (aligned _)
        · exact (upper.scans.recordTexts ds).trans (records.trans (hs.scans.recordTexts cs).symm)

/-! ### Fixed texts -/

/-- A text with raised words is read as the same rule with renamed calls. -/
theorem read_raised {ds : List Char} {o : Option Rule} (h : Dsl.read cs = .ok o)
    (ha : (raised words).Aligned false false 0 cs ds) (hr : recordTexts ds = recordTexts cs) :
    ∃ o', Dsl.read ds = .ok o' ∧ Option.Rel (Rule.Renamed (Raised words)) o o' := by
  cases o with
  | none =>
      have nothing := Dsl.document_eq_none_iff.mp
        (Dsl.readStructure_eq_ok_iff.mp (Dsl.read_eq_ok_none_iff.mp h))
      have settled := ha.settled.resolve_right fun dead => dead.1
      obtain ⟨-, ended⟩ := settled.tail_of_nil nothing
      exact ⟨none, Dsl.read_eq_ok_none_iff.mpr
        (Dsl.readStructure_eq_ok_iff.mpr (Dsl.document_of_nil ended)), .none⟩
  | some r =>
      obtain ⟨q, hq, hs⟩ := Dsl.read_eq_ok_some_iff.mp h
      obtain ⟨q', j, hd, ⟨-, renamed⟩, -⟩ :=
        Dsl.document_of_aligned fits_raised rfl ha (Dsl.readStructure_eq_ok_iff.mp hq)
      have record : ∀ body ∈ recordTexts cs, ∀ r q r', r.Renamed (Raised words) q →
          Dsl.setRecord r body = some r' →
            ∃ q', Dsl.setRecord q body = some q' ∧ r'.Renamed (Raised words) q' := by
        intro body _ r q r' h hs
        obtain ⟨record, hb, ha⟩ := Option.bind_eq_some_iff.mp hs
        obtain ⟨q', hq, hr⟩ := h.annotate ha
        exact ⟨q', by rw [Dsl.setRecord, hb]; exact hq, hr⟩
      obtain ⟨r', hr', renamed⟩ := Dsl.foldlM_setRecord record renamed hs
      exact ⟨some r', Dsl.read_eq_ok_some_iff.mpr
        ⟨q', Dsl.readStructure_eq_ok_iff.mpr hd, hr ▸ hr'⟩, .some renamed⟩

/-- The words that fixes replace. -/
def replacedWords (text : String) (found : List Finding) : List String :=
  (found.filterMap fun f => f.fix.map Fix.edit).map fun e => String.ofList (e.replaced text.toList)

/-- **A text is read with its keywords put in upper case**, as the linter proposes.  What is read
differs at most in names of calls, and not at all if none of those is a word that is replaced. -/
theorem parse_raised {text : String} {o : Option Rule} (h : Dsl.parse text = .ok o) (s : Settings)
    (schema : Option Schema) :
    let found := (lint s schema text).filter fun f => f.check = .lowercaseKeyword
    ∃ o', Dsl.parse (applyFixes text found) = .ok o' ∧
      Option.Rel (Rule.Renamed (Raised (replacedWords text found))) o o' ∧
      ((∀ r ∈ o, ∀ p ∈ r.preorder, ∀ name ∈ p.callNames, name ∉ replacedWords text found) →
        o' = o) := by
  intro found
  obtain ⟨o', hread, renamed⟩ : ∃ o', Dsl.parse (applyFixes text found) = .ok o' ∧
      Option.Rel (Rule.Renamed (Raised (replacedWords text found))) o o' := by
    have perm := @perm_editsOf_lint s schema text .lowercaseKeyword (by decide)
    rw [editsOf_from (from_checkLines _ _ _ _) (by decide), List.append_nil] at perm
    rw [Dsl.parse] at h ⊢
    split at perm
    · obtain ⟨q, hq⟩ := Dsl.exists_readStructure h
      have replaced : ∀ e ∈ editsOf .lowercaseKeyword
          (checkKeywords text.toList none (tokens text.toList)),
          String.ofList (e.replaced text.toList) ∈ replacedWords text found := fun e he =>
        List.mem_map.mpr ⟨e, perm.mem_iff.mpr he, rfl⟩
      obtain ⟨ds, splices, -, aligned, records⟩ :=
        (tokenized_of_readStructure hq).raised (List.nil_append _) rfl none replaced
      rw [applyFixes_of_splices perm splices, String.toList_ofList]
      exact read_raised h (aligned false) records
    · rw [applyFixes_of_splices perm .done, String.toList_ofList]
      refine ⟨o, h, ?_⟩
      cases o with
      | none => exact .none
      | some r => exact .some (.refl (fun _ => .inl rfl) r)
  refine ⟨o', hread, renamed, fun kept => ?_⟩
  cases renamed with
  | none => rfl
  | some renamed =>
      rw [renamed.eq fun p hp name hn t ht => ?_]
      exact ht.resolve_right fun raised => kept _ rfl p hp name hn raised.1

/-- Operators and the head of a group are put in upper case.  The fields of conditions and the name
of a function in front of its parenthesis are left, and what is read is the same. -/
theorem parse_raised_operators :
    let text := "not or == true and (Or and contains \"x\", iMplies(XOR))"
    let found := (lint .standard none text).filter fun f => f.check = .lowercaseKeyword
    (∃ r, Dsl.parse text = .ok (some r) ∧
      (∀ p ∈ r.preorder, ∀ name ∈ p.callNames, name ∉ replacedWords text found) ∧
      Dsl.parse (applyFixes text found) = .ok (some r)) ∧
    applyFixes text found = "NOT or == true AND (OR and contains \"x\", iMplies(XOR))" := by
  let rule : Rule := .group .and
    [.group .not [.atom (.condition ⟨"or", .equals, .bool true, .literal⟩) none],
      .group .or [.atom (.condition ⟨"and", .contains, .string "x", .literal⟩) none,
        .atom (.call "iMplies" [⟨.string "XOR", .fieldReference⟩]) none]]
  have read : Dsl.parse "not or == true and (Or and contains \"x\", iMplies(XOR))" =
      .ok (some rule) := rfl
  have kept : ∀ p ∈ rule.preorder, ∀ name ∈ p.callNames, name ∉ replacedWords
      "not or == true and (Or and contains \"x\", iMplies(XOR))" ((lint .standard none
        "not or == true and (Or and contains \"x\", iMplies(XOR))").filter
          fun f => f.check = .lowercaseKeyword) := by decide +kernel
  obtain ⟨_, fixed, -, same⟩ := parse_raised read .standard none
  obtain rfl := same fun r hr => Option.some.inj hr ▸ kept
  exact ⟨⟨rule, read, kept, fixed⟩, by decide +kernel⟩

/-- A keyword in lower case may name a field in a call. -/
theorem parse_raised_argument :
    let text := "f(or)"
    let fixed := applyFixes text
      ((lint .standard none text).filter fun f => f.check = .lowercaseKeyword)
    ∃ r, Dsl.parse text = .ok (some r) ∧ Dsl.parse fixed ≠ .ok (some r) := by
  have fixed : applyFixes "f(or)" ((lint .standard none "f(or)").filter
      fun f => f.check = .lowercaseKeyword) = "f(OR)" := by decide +kernel
  have before : Dsl.parse "f(or)" =
      .ok (some (.atom (.call "f" [⟨.string "or", .fieldReference⟩]) none)) := rfl
  have after : Dsl.parse "f(OR)" =
      .ok (some (.atom (.call "f" [⟨.string "OR", .fieldReference⟩]) none)) := rfl
  refine ⟨_, before, fun h => ?_⟩
  rw [fixed, after] at h
  simp at h

end Rulebook.Lint
