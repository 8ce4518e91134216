import Rulebook.Lint.Linter
import Rulebook.Proofs.Lint.Fixing

/-!
# Rulebook — Proofs — Lint — Checks

Which findings each part of the linter gives: those of the checks it makes, with their categories
(`from_checkKeywords`, `from_checkLines`, …).  The findings of one check are therefore found in one
place, and what is wanted of them are all or none (`perm_lint_filter`).
-/

namespace Rulebook.Lint

variable {text : List Char} {checks : List Check}

/-- The finding is one of these checks', with the category of its check. -/
structure Finding.From (checks : List Check) (f : Finding) : Prop where
  check : f.check ∈ checks
  category : f.category = f.check.category

theorem from_of {check : Check} (h : check ∈ checks) (location : Location) (message : String)
    (fix : Option Fix) : (Finding.of check location message fix).From checks :=
  ⟨h, rfl⟩

/-- A check that gives at most one finding. -/
theorem from_ite {c : Prop} [Decidable c] {f : Finding} (h : f.From checks) :
    ∀ g ∈ if c then [f] else [], g.From checks := by
  split
  · exact List.forall_mem_singleton.mpr h
  · exact List.forall_mem_nil _

/-! ### Tokens and lines -/

/-- The check of parentheses reports nothing else. -/
theorem from_checkParens (ts : List Token) :
    ∀ f ∈ checkParens text ts, f.From [.unbalancedParens] := by
  have closing (offsets : List Nat) : ∀ f ∈ offsets.map fun offset =>
      Finding.of .unbalancedParens (Text.locate text offset) "')' has no matching '('" none,
      f.From [.unbalancedParens] := by
    intro f hf
    obtain ⟨offset, -, rfl⟩ := List.mem_map.mp hf
    exact from_of (by decide) _ _ _
  rw [checkParens]
  dsimp only
  split
  · exact closing _
  · exact List.forall_mem_append.mpr
      ⟨closing _, List.forall_mem_singleton.mpr (from_of (by decide) _ _ _)⟩

theorem from_checkCase (t : Token) (op : Connective) :
    ∀ f ∈ checkCase text t op, f.From [.lowercaseKeyword] := by
  rw [checkCase]
  split
  · exact List.forall_mem_nil _
  · exact List.forall_mem_singleton.mpr (from_of (by decide) _ _ _)

theorem from_checkNegation (previous : Option Token) (t : Token) (op : Connective)
    (later : List Token) :
    ∀ f ∈ checkNegation text previous t op later, f.From [.doubleNegation] :=
  from_ite (from_of (by decide) _ _ _)

/-- A finding of one of these checks is one of more checks. -/
theorem Finding.From.mono {f : Finding} {more : List Check} (h : f.From checks)
    (hs : checks ⊆ more) : f.From more :=
  ⟨hs h.check, h.category⟩

/-- The checks of keywords report nothing else. -/
theorem from_checkKeywords (previous : Option Token) (ts : List Token) :
    ∀ f ∈ checkKeywords text previous ts, f.From [.lowercaseKeyword, .doubleNegation] := by
  induction ts generalizing previous with
  | nil => exact List.forall_mem_nil _
  | cons t ts ih =>
      refine List.forall_mem_append.mpr ⟨?_, ih (some t)⟩
      split
      · exact List.forall_mem_nil _
      · split
        · exact List.forall_mem_nil _
        · exact List.forall_mem_append.mpr
            ⟨fun f hf => (from_checkCase t _ f hf).mono (by decide),
              fun f hf => (from_checkNegation previous t _ ts f hf).mono (by decide)⟩

theorem from_checkLineEnd (number offset : Nat) (line : List Char) :
    ∀ f ∈ checkLineEnd number offset line, f.From [.trailingWhitespace] :=
  from_ite (from_of (by decide) _ _ _)

theorem from_checkLineLength (limit number : Nat) (line : List Char) :
    ∀ f ∈ checkLineLength limit number line, f.From [.lineTooLong] :=
  from_ite (from_of (by decide) _ _ _)

/-- The checks of lines report nothing else. -/
theorem from_checkLines (limit number offset : Nat) (lines : List (List Char)) :
    ∀ f ∈ checkLines limit number offset lines, f.From [.trailingWhitespace, .lineTooLong] := by
  induction lines generalizing number offset with
  | nil => exact List.forall_mem_nil _
  | cons raw lines ih =>
      refine List.forall_mem_append.mpr ⟨List.forall_mem_append.mpr ⟨?_, ?_⟩, ih _ _⟩
      · exact fun f hf => (from_checkLineEnd _ _ _ f hf).mono (by decide)
      · exact fun f hf => (from_checkLineLength _ _ _ f hf).mono (by decide)

theorem from_checkGroup (start : Nat) (op : Connective) (later : List Token) :
    ∀ f ∈ checkGroup text start op later, f.From [.emptyGroup, .singleChildGroup] := by
  rw [checkGroup]
  split
  · exact List.forall_mem_singleton.mpr (from_of (by decide) _ _ _)
  · exact from_ite (from_of (by decide) _ _ _)

/-- The checks of groups report nothing else. -/
theorem from_checkGroups (ts : List Token) :
    ∀ f ∈ checkGroups text ts, f.From [.emptyGroup, .singleChildGroup] := by
  induction ts with
  | nil => exact List.forall_mem_nil _
  | cons t ts ih =>
      refine List.forall_mem_append.mpr ⟨?_, ih⟩
      split
      · split
        · exact from_checkGroup _ _ _
        · exact List.forall_mem_nil _
      · exact List.forall_mem_nil _

/-! ### Rules -/

section

/-- The checks that need a rule. -/
def ruleChecks : List Check := [.unknownField, .operatorNotAllowed, .duplicateCondition]

variable (c : Context)

/-- The checks against a schema report nothing else. -/
theorem from_checkCondition (index : Nat) (cond : Condition) :
    ∀ f ∈ c.checkCondition index cond, f.From [.unknownField, .operatorNotAllowed] := by
  have unknown (field : String) :
      (c.unknownField index field).From [.unknownField, .operatorNotAllowed] :=
    from_of (by decide) _ _ _
  rw [Context.checkCondition]
  split
  · exact List.forall_mem_nil _
  · refine List.forall_mem_append.mpr ⟨?_, ?_⟩
    · split
      · exact List.forall_mem_singleton.mpr (unknown _)
      · split
        · exact List.forall_mem_nil _
        · exact List.forall_mem_singleton.mpr (from_of (by decide) _ _ _)
    · split
      · exact from_ite (unknown _)
      · exact List.forall_mem_nil _

theorem from_checkRepeated (index : Nat) (seen : List Condition) (cond : Condition) :
    ∀ f ∈ c.checkRepeated index seen cond, f.From [.duplicateCondition] :=
  from_ite (from_of (by decide) _ _ _)

mutual

/-- What is reported about a rule is about repeated conditions and the schema. -/
theorem from_checkRule (index : Nat) :
    ∀ r : Rule, ∀ f ∈ (checkRule c index r).1, f.From ruleChecks
  | .atom a _ => by
      cases a with
      | condition cond => exact fun f hf => (from_checkCondition c index cond f hf).mono (by decide)
      | _ => exact List.forall_mem_nil _
  | .scope _ body _ => by
      rw [checkRule]
      exact from_checkRule index body
  | .junction _ members _ => by
      rw [checkRule]
      exact from_checkMembers _ [] index members

theorem from_checkMembers (inGroup : Bool) (seen : List Condition) (index : Nat) :
    ∀ rs : List Rule, ∀ f ∈ (checkMembers c inGroup seen index rs).1, f.From ruleChecks
  | [] => List.forall_mem_nil _
  | r :: rs => by
      rw [checkMembers]
      refine List.forall_mem_append.mpr ⟨List.forall_mem_append.mpr ⟨?_, ?_⟩, ?_⟩
      · intro f hf
        split at hf
        · obtain ⟨cond, -, hf⟩ := List.mem_flatMap.mp hf
          exact (from_checkRepeated c index seen cond f hf).mono (by decide)
        · exact absurd hf List.not_mem_nil
      · exact from_checkRule index r
      · exact from_checkMembers inGroup _ _ rs

end

end

/-! ### The findings of one check -/

variable {s : Settings} {schema : Option Schema}

/-- The findings of a check are the same with others around them. -/
theorem filter_from {found : List Finding} {check : Check} (h : ∀ f ∈ found, f.From checks)
    (hc : check ∉ checks) : (found.filter fun f => f.check = check) = [] := by
  refine List.filter_eq_nil_iff.mpr fun f hf e => hc ?_
  rw [decide_eq_true_eq] at e
  exact e ▸ (h f hf).check

/-- The findings, part by part. -/
theorem exists_parts (s : Settings) (schema : Option Schema) (text : List Char) :
    ∃ grammar ruled, findings s schema text = grammar ++ checkParens text (tokens text) ++
        checkKeywords text none (tokens text) ++
        checkLines s.maxLineLength 1 0 (splitLines text) ++ checkGroups text (tokens text) ++ ruled ∧
      (∀ f ∈ grammar, f.From [.parsing]) ∧ (∀ f ∈ ruled, f.From ruleChecks) ∧
      ∀ o, Dsl.read text = .ok o → ruled = o.elim [] fun r =>
        (checkRule ⟨text, conditionOffsets (tokens text), schema⟩ 0 r).1 := by
  refine ⟨_, _, rfl, ?_, ?_, ?_⟩
  · split
    · exact List.forall_mem_singleton.mpr (from_of (List.mem_singleton_self _) _ _ _)
    · exact List.forall_mem_nil _
  · split
    · exact from_checkRule _ 0 _
    · exact List.forall_mem_nil _
  · intro o h
    rw [h]
    cases o <;> rfl

/-- The findings about keywords are those of one part of the linter, and so are those about
lines. -/
theorem filter_findings {check : Check}
    (hc : check ∉ .parsing :: .unbalancedParens :: .emptyGroup :: .singleChildGroup :: ruleChecks) :
    ((findings s schema text).filter fun f => f.check = check) =
      ((checkKeywords text none (tokens text)).filter fun f => f.check = check) ++
        (checkLines s.maxLineLength 1 0 (splitLines text)).filter fun f => f.check = check := by
  simp only [List.mem_cons, not_or] at hc
  obtain ⟨parsing, parens, empty, single, rule⟩ := hc
  obtain ⟨grammar, ruled, whole, parsed, about, -⟩ := exists_parts s schema text
  rw [whole]
  simp only [List.filter_append]
  rw [filter_from parsed (by simpa using parsing), filter_from about rule,
    filter_from (from_checkParens _) (by simpa using parens),
    filter_from (from_checkGroups _) (by simpa using ⟨empty, single⟩)]
  simp

/-- The findings about parentheses are those of one part of the linter. -/
theorem filter_findings_parens :
    ((findings s schema text).filter fun f => f.check = .unbalancedParens) =
      checkParens text (tokens text) := by
  have own : ∀ f ∈ checkParens text (tokens text), f.check = .unbalancedParens :=
    fun f hf => List.mem_singleton.mp (from_checkParens _ f hf).check
  obtain ⟨grammar, ruled, whole, parsed, about, -⟩ := exists_parts s schema text
  rw [whole]
  simp only [List.filter_append]
  rw [filter_from parsed (by decide), filter_from about (by decide),
    filter_from (from_checkKeywords _ _) (by decide),
    filter_from (from_checkLines _ _ _ _) (by decide), filter_from (from_checkGroups _) (by decide),
    List.filter_eq_self.mpr fun f hf => decide_eq_true (own f hf)]
  simp

/-- The findings about groups are those of one part of the linter. -/
theorem filter_findings_groups {check : Check} (hc : check ∈ [.emptyGroup, .singleChildGroup]) :
    ((findings s schema text).filter fun f => f.check = check) =
      (checkGroups text (tokens text)).filter fun f => f.check = check := by
  have apart : check ∉ [.parsing] ∧ check ∉ [.unbalancedParens] ∧
      check ∉ [.lowercaseKeyword, .doubleNegation] ∧ check ∉ [.trailingWhitespace, .lineTooLong] ∧
      check ∉ ruleChecks := by
    revert hc
    cases check <;> decide
  obtain ⟨parsing, parens, words, lines, rule⟩ := apart
  obtain ⟨grammar, ruled, whole, parsed, about, -⟩ := exists_parts s schema text
  rw [whole]
  simp only [List.filter_append]
  rw [filter_from parsed parsing, filter_from about rule, filter_from (from_checkParens _) parens,
    filter_from (from_checkKeywords _ _) words, filter_from (from_checkLines _ _ _ _) lines]
  simp

/-- The findings that need a rule are those about the rule that is read. -/
theorem filter_findings_rule {o : Option Rule} (h : Dsl.read text = .ok o) :
    ((findings s schema text).filter fun f => f.check ∈ ruleChecks) =
      o.elim [] fun r => (checkRule ⟨text, conditionOffsets (tokens text), schema⟩ 0 r).1 := by
  have none {found : List Finding} {checks : List Check} (hf : ∀ f ∈ found, f.From checks)
      (apart : ∀ check ∈ checks, check ∉ ruleChecks) :
      (found.filter fun f => f.check ∈ ruleChecks) = [] :=
    List.filter_eq_nil_iff.mpr fun f hm => by simpa using apart _ (hf f hm).check
  obtain ⟨grammar, ruled, whole, parsed, about, rule⟩ := exists_parts s schema text
  rw [whole]
  simp only [List.filter_append]
  rw [none parsed (by decide), none (from_checkParens _) (by decide),
    none (from_checkKeywords _ _) (by decide), none (from_checkLines _ _ _ _) (by decide),
    none (from_checkGroups _) (by decide),
    List.filter_eq_self.mpr fun f hf => decide_eq_true (about f hf).check, rule o h]
  rfl

/-- The findings of some checks that are wanted, in some order. -/
theorem perm_lint_filter_mem (text : String) (checks : List Check) :
    ((lint s schema text).filter fun f => f.check ∈ checks).Perm
      (((findings s schema text.toList).filter fun f => f.check ∈ checks).filter fun f =>
        s.isEnabled f.check) := by
  refine ((perm_sortStable _).filter _).trans ?_
  rw [List.filter_filter, List.filter_filter]
  simp only [Bool.and_comm]
  exact .refl _

/-- **The findings of one check that are wanted are all of them or none**, in some order. -/
theorem perm_lint_filter (text : String) (check : Check) :
    ((lint s schema text).filter fun f => f.check = check).Perm
      (if s.isEnabled check then
        (findings s schema text.toList).filter fun f => f.check = check
      else []) := by
  refine ((perm_sortStable _).filter _).trans ?_
  rw [List.filter_filter]
  have only (f : Finding) : (decide (f.check = check) && s.isEnabled f.check) =
      (decide (f.check = check) && s.isEnabled check) := by
    by_cases h : f.check = check
    · rw [h]
    · simp [h]
  simp only [only]
  cases s.isEnabled check <;> simp

/-- The edits that findings of a check propose. -/
def editsOf (check : Check) (found : List Finding) : List Edit :=
  (found.filter fun f => f.check = check).filterMap fun f => f.fix.map Fix.edit

/-- The edits of findings in two parts are those of both parts. -/
theorem editsOf_append (check : Check) (found later : List Finding) :
    editsOf check (found ++ later) = editsOf check found ++ editsOf check later := by
  rw [editsOf, List.filter_append, List.filterMap_append, editsOf, editsOf]

/-- Findings of other checks have no edits of this one. -/
theorem editsOf_from {found : List Finding} {check : Check} (h : ∀ f ∈ found, f.From checks)
    (hc : check ∉ checks) : editsOf check found = [] := by
  rw [editsOf, filter_from h hc]
  rfl

/-- The edits that the findings of a check about keywords or lines propose. -/
theorem perm_editsOf_lint (text : String) {check : Check}
    (hc : check ∉ .parsing :: .unbalancedParens :: .emptyGroup :: .singleChildGroup :: ruleChecks) :
    (editsOf check (lint s schema text)).Perm
      (if s.isEnabled check then
        editsOf check (checkKeywords text.toList none (tokens text.toList)) ++
          editsOf check (checkLines s.maxLineLength 1 0 (splitLines text.toList))
      else []) := by
  refine ((perm_lint_filter text check).filterMap _).trans ?_
  split
  · rw [filter_findings hc, List.filterMap_append]
    exact .refl _
  · exact .refl _

end Rulebook.Lint
