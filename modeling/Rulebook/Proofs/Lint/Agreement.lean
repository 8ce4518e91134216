import Rulebook.Proofs.Dsl.Accepted
import Rulebook.Proofs.Lint.Checks
import Rulebook.Proofs.Lint.Tokens

/-!
# Rulebook — Proofs — Lint — Agreement

The linter accepts what the grammar accepts (`lint_of_parse`), whatever is wanted of it and whatever
is known about fields.

Every place that a reader of the grammar gets to is a cut of the text, and what is left there closes
the parentheses that are open (`closes_of_cut`).  The grammar cuts an accepted text to its end with
none open, so that the tokens have a partner for each.  All other checks are about style or meaning.
-/

namespace Rulebook.Lint

variable {n : Nat} {cs : List Char} {text : List Char}

/-! ### Parentheses -/

/-- The characters of comparison symbols are inert. -/
theorem isInert_of_isSymbol {c : Char} (h : Dsl.isSymbol c = true) : isInert c = true := by
  have inert : Dsl.symbolChars.all isInert = true := by decide
  exact List.all_eq_true.mp inert c (List.contains_iff_mem.mp h)

mutual

/-- Blanks and comments hold nothing that counts. -/
theorem closes_of_skipTrivia : ∀ {cs : List Char}, Closes n (Dsl.skipTrivia cs) → Closes n cs
  | [], t => by rwa [Dsl.skipTrivia] at t
  | c :: cs, t => by
      rw [Dsl.skipTrivia] at t
      split at t
      · rename_i hb
        exact .inert (isInert_of_isAsciiBlank hb) (closes_of_skipTrivia t)
      · split at t
        · rename_i hc
          rw [Bool.and_eq_true, decide_eq_true_eq] at hc
          obtain ⟨rfl, hl⟩ := hc
          exact .comment hl (closes_of_skipComment hl t)
        · exact t

/-- What closes the parentheses behind a comment, as the grammar skips it, does so behind its line,
as the linter drops it. -/
theorem closes_of_skipComment : ∀ {cs : List Char}, Dsl.lineCloses cs = true →
    Closes n (Dsl.skipComment cs) → Closes n (Dsl.splitLine cs).2
  | [], _, t => by rwa [Dsl.skipComment] at t
  | c :: cs, hl, t => by
      rw [Dsl.skipComment] at t
      rw [Dsl.lineCloses.eq_def] at hl
      rw [Dsl.splitLine.eq_def]
      dsimp only at hl ⊢
      split at t
      · rename_i feed
        rw [if_pos feed]
        exact .inert (by rw [feed]; decide) (closes_of_skipTrivia t)
      · rename_i feed
        rw [if_neg feed] at hl ⊢
        split at hl
        · rename_i carriage
          rw [if_pos carriage]
          -- The line can only close here, so that the comment does not go on.
          split at hl
          · rename_i cs
            rw [Dsl.skipComment, if_pos rfl] at t
            exact .inert (by rw [carriage]; decide) (.inert (by decide) (closes_of_skipTrivia t))
          · cases hl
        · rename_i carriage
          rw [if_neg carriage]
          exact closes_of_skipComment hl t

end

/-- What is left at a cut closes what is open there. -/
theorem closes_of_cut (h : Dsl.Cut text n cs) (t : Closes n cs) : Closes 0 text := by
  induction h with
  | whole => exact t
  | trivia _ ih => exact ih (closes_of_skipTrivia t)
  | name _ hc ih =>
      exact ih (.inert (isInert_of_isNamePart (Text.isNamePart_of_isNameStart hc))
        (t.of_dropWhile fun _ => isInert_of_isNamePart))
  | digits _ hc ih =>
      exact ih (.inert (isInert_of_isDigit hc) (t.of_dropWhile fun _ => isInert_of_isDigit))
  | string _ hs ih => exact ih (.string hs t)
  | reference _ hf ih => exact ih (.reference hf t)
  | symbol _ hc ih => exact ih (.inert (isInert_of_isSymbol hc) t)
  | opening _ ih => exact ih (.opening t)
  | closing _ ih => exact ih (.closing t)

/-- The tokens of an accepted text leave no parenthesis without a partner. -/
theorem unmatched_of_readStructure {o : Option Rule} (h : Dsl.readStructure text = .ok o) :
    unmatched [] (tokens text) = ⟨[], []⟩ :=
  (closes_of_cut (Dsl.cut_of_readStructure h) .nil).unmatched_tokensWithin
    (Nat.lt_succ_self _) rfl

/-! ### The other checks -/

/-- The finding is about the style of a text or about its meaning. -/
structure Finding.BeyondGrammar (f : Finding) : Prop where
  check : f.check.category ≠ .grammar
  category : f.category ≠ .grammar

/-- Checks beyond the grammar give findings beyond the grammar. -/
theorem beyondGrammar_of_from {checks : List Check} {found : List Finding}
    (h : ∀ f ∈ found, f.From checks) (hc : ∀ c ∈ checks, c.category ≠ .grammar) :
    ∀ f ∈ found, f.BeyondGrammar := by
  intro f hf
  have beyond := hc f.check (h f hf).check
  exact ⟨beyond, by rwa [(h f hf).category]⟩

/-! ### Accepted texts -/

/-- What the grammar accepts has findings beyond it only. -/
theorem beyondGrammar_findings {o : Option Rule} (h : Dsl.read text = .ok o) (s : Settings)
    (schema : Option Schema) : ∀ f ∈ findings s schema text, f.BeyondGrammar := by
  obtain ⟨read, hs, -⟩ := bind_eq_ok_iff.mp h
  have matched : checkParens text (tokens text) = [] := by
    rw [checkParens, unmatched_of_readStructure hs]
    rfl
  rw [findings, h, matched]
  dsimp only
  simp only [List.nil_append, List.forall_mem_append]
  refine ⟨⟨⟨beyondGrammar_of_from (from_checkKeywords _ _) (by decide),
    beyondGrammar_of_from (from_checkLines _ _ _ _) (by decide)⟩,
    beyondGrammar_of_from (from_checkGroups _) (by decide)⟩, ?_⟩
  split
  · exact beyondGrammar_of_from (from_checkRule _ _ _) (by decide)
  · exact List.forall_mem_nil _

/-- **The linter accepts what the grammar accepts**: whatever the settings and the schema, there is
no finding about the grammar of a text that can be read. -/
theorem lint_of_parse {text : String} {o : Option Rule} (h : Dsl.parse text = .ok o)
    (s : Settings) (schema : Option Schema) :
    ∀ f ∈ lint s schema text,
      f.category ≠ .grammar ∧ f.check ≠ .parsing ∧ f.check ≠ .unbalancedParens := by
  intro f hf
  obtain ⟨hf, -⟩ := List.mem_filter.mp (mem_sortStable.mp hf)
  have beyond := beyondGrammar_findings h s schema f hf
  refine ⟨beyond.category, fun e => beyond.check ?_, fun e => beyond.check ?_⟩
  · rw [e]
    rfl
  · rw [e]
    rfl

/-- Parentheses without a partner in a string literal, behind an escaped quote, and in a
comment. -/
theorem lint_of_parse_nested :
    let text := "( f($\x7ba\x7d, \"(\\\"((\") # )))\n AND (b == 1 OR NOT (c <= -2.5)) )"
    ∃ r, Dsl.parse text = .ok (some r) ∧
      ∀ f ∈ lint .standard none text,
        f.category ≠ .grammar ∧ f.check ≠ .parsing ∧ f.check ≠ .unbalancedParens :=
  ⟨_, rfl, lint_of_parse rfl .standard none⟩

end Rulebook.Lint
