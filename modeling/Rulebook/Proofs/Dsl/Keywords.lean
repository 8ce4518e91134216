import Rulebook.Proofs.Dsl.Lexical

/-!
# Rulebook — Proofs — Dsl — Keywords

What the readers of words and punctuation make of a keyword.  Readers of names read it as a name
(`Naming`), readers of literals, comparisons and punctuation refuse it (`Wordless`), and readers of
connectives tell keywords apart by what they stand for (`Uniform`).  None of them looks at the
letter case, except that a name is what is written.
-/

namespace Rulebook.Dsl

open Grammar
open Text (startsOutside_cons startsOutside_nil)

variable {α β : Type} {p q : Grammar α} {w rest : List Char} {op : Connective}

/-- A keyword starts like a name. -/
theorem exists_cons_of_ofKeyword? (h : Connective.ofKeyword? w = some op) :
    ∃ c t, w = c :: t ∧ Text.isNameStart c = true := exists_cons_of_isName (isName_of_ofKeyword? h)

/-- A keyword starts like a name, and like nothing else. -/
theorem ne_of_ofKeyword? (h : Connective.ofKeyword? w = some op) {d : Char}
    (hd : Text.isNameStart d = false) : ∀ t, w ++ rest ≠ d :: t := by
  obtain ⟨c, u, rfl, hc⟩ := exists_cons_of_ofKeyword? h
  rintro t e
  rw [← (List.cons.inj e).1, hc] at hd
  cases hd

/-! ### Readers that read no keyword -/

/-- The reader refuses every keyword, and the end of a text. -/
structure Wordless (p : Grammar α) : Prop where
  words : ∀ {op : Connective} {w rest : List Char}, Connective.ofKeyword? w = some op → Ends rest →
    p.Refuses (w ++ rest)
  ends : p.Refuses []

namespace Wordless

/-- What follows a reader that reads no keyword does not change that. -/
theorem bind (h : Wordless p) (f : α → Grammar β) : Wordless (p >>= f) where
  words hw hr := (h.words hw hr).bind f
  ends := h.ends.bind f

theorem marked (h : Wordless p) (m : Mark) : Wordless (Grammar.marked m p) where
  words hw hr := (h.words hw hr).marked m
  ends := h.ends.marked m

/-- Two readers that read no keyword are alternatives that read none. -/
theorem orElse (h : Wordless p) (h' : Wordless q) : Wordless (p <|> q) where
  words hw hr := (h.words hw hr).orElse (h'.words hw hr)
  ends := h.ends.orElse h'.ends

end Wordless

theorem wordless_char {c : Char} (hc : Text.isNameStart c = false) : Wordless (char c) where
  words hw _ := refuses_char (ne_of_ofKeyword? hw hc)
  ends := refuses_char fun _ => nofun

theorem wordless_fieldReference : Wordless fieldReference where
  words hw _ := refuses_fieldReference (ne_of_ofKeyword? hw (by decide))
  ends := refuses_fieldReference fun _ => nofun

theorem wordless_stringLiteral : Wordless stringLiteral where
  words hw _ := refuses_stringLiteral (ne_of_ofKeyword? hw (by decide))
  ends := refuses_stringLiteral fun _ => nofun

/-- A word that is no keyword is not the one that was read. -/
theorem ne_headWord {text : String} (hk : Connective.ofKeyword? text.toList = none)
    (hw : Connective.ofKeyword? w = some op) (hr : Ends rest) :
    headWord (w ++ rest) ≠ text.toList := by
  rw [headWord_keyword hw hr]
  rintro rfl
  rw [hw] at hk
  cases hk

/-- A word reads no keyword if it is none. -/
theorem wordless_word {text : String} (hn : isName text = true)
    (hk : Connective.ofKeyword? text.toList = none) : Wordless (word text) where
  words hw hr := refuses_word (isNamePart_of_isName hn) (ne_headWord hk hw hr)
  ends := by
    obtain ⟨c, t, e, -⟩ := exists_cons_of_isName hn
    exact (refuses_exact (by simp [e])).bind _

theorem wordless_digits : Wordless digits where
  words hw _ := by
    obtain ⟨c, t, rfl, hc⟩ := exists_cons_of_ofKeyword? hw
    exact refuses_digits (startsOutside_cons (isDigit_of_isNameStart hc))
  ends := refuses_digits startsOutside_nil

theorem wordless_number : Wordless number where
  words hw hr := Refuses.of_bind
    (optional_of_refuses ((wordless_char (by decide)).words hw hr))
    ((wordless_digits.words hw hr).bind _)
  ends := Refuses.of_bind (optional_of_refuses (wordless_char (by decide)).ends)
    (wordless_digits.ends.bind _)

/-- A literal is no keyword. -/
theorem wordless_literalValue : Wordless literalValue :=
  have spelled (text : String) (v : Literal) (hn : isName text = true)
      (hk : Connective.ofKeyword? text.toList = none) :
      Wordless (do word text; return v : Grammar Literal) := (wordless_word hn hk).bind _
  ((wordless_stringLiteral.bind _).orElse ((spelled "true" _ (by decide) (by decide)).orElse
    ((spelled "false" _ (by decide) (by decide)).orElse
      ((spelled "null" _ (by decide) (by decide)).orElse wordless_number)))).marked _

/-- An operand is no keyword. -/
theorem wordless_operand : Wordless operand :=
  ((wordless_fieldReference.bind _).orElse (wordless_literalValue.bind _)).marked _

theorem wordless_payload : Wordless payload := by
  have refuses {cs : List Char} (h : stringLiteral.Refuses cs) : payload.Refuses cs := by
    obtain ⟨f, t, e, hf⟩ := h
    exact Refuses.marked ⟨f, t, by simp only [e], hf⟩ _
  exact ⟨fun hw hr => refuses (wordless_stringLiteral.words hw hr),
    refuses wordless_stringLiteral.ends⟩

/-- A natural number is no keyword. -/
theorem wordless_naturalBelow (bound : Nat) : Wordless (naturalBelow bound) := by
  have refuses {cs : List Char} (h : digits.Refuses cs) : (naturalBelow bound).Refuses cs := by
    obtain ⟨f, t, e, hf⟩ := h
    exact Refuses.marked ⟨f, t, by simp only [e], hf⟩ _
  exact ⟨fun hw hr => refuses (wordless_digits.words hw hr), refuses wordless_digits.ends⟩

/-- A comparison is no keyword. -/
theorem wordless_comparison : Wordless comparison := by
  have symbol {s : List Char} (hs : s ∈ Lint.symbols) : Wordless (exact s) := by
    have shape : ∀ s ∈ Lint.symbols, ∃ d t, s = d :: t ∧ Text.isNameStart d = false := by
      simp [Lint.symbols, Text.isNameStart]
    obtain ⟨d, t, rfl, hd⟩ := shape s hs
    refine ⟨fun hw _ => refuses_exact fun h => ?_, refuses_exact (by simp)⟩
    obtain ⟨u, e⟩ := h
    exact ne_of_ofKeyword? hw hd _ e.symm
  have spelled (text : String) (c : Comparison) (hn : isName text = true)
      (hk : Connective.ofKeyword? text.toList = none) :
      Wordless (do word text; return c : Grammar Comparison) := (wordless_word hn hk).bind _
  have words : Wordless comparisonWord :=
    (spelled "contains" _ (by decide) (by decide)).orElse
      ((spelled "startsWith" _ (by decide) (by decide)).orElse
        (spelled "endsWith" _ (by decide) (by decide)))
  have other {cs : List Char} (hs : ∀ s ∈ Lint.symbols, (exact s).Refuses cs)
      (h : comparisonWord.Refuses cs) : comparison.Refuses cs := by
    rw [Refuses, comparison_of_refuses hs]
    exact h
  exact ⟨fun hw hr => other (fun s hs => (symbol hs).words hw hr) (words.words hw hr),
    other (fun s hs => (symbol hs).ends) words.ends⟩

/-! ### Readers of names -/

/-- The reader makes `f` of a keyword, as of a name. -/
structure Naming (f : String → α) (p : Grammar α) : Prop where
  lexical : Lexical p
  words : ∀ {op : Connective} {w rest : List Char}, Connective.ofKeyword? w = some op → Ends rest →
    p (w ++ rest) = .ok (f (String.ofList w)) rest

theorem Naming.expecting {f : String → α} (h : Naming f p) (what : String) :
    Naming f (Grammar.expecting what p) where
  lexical := h.lexical.expecting what
  words hw hr := expecting_ok (h.words hw hr) what

theorem Naming.commit {f : String → α} (h : Naming f p) : Naming f (Grammar.commit p) where
  lexical := h.lexical.commit
  words hw hr := commit_ok (h.words hw hr)

/-- A name may be a keyword. -/
theorem naming_nameString : Naming id nameString where
  lexical := lexical_nameString
  words hw hr := map_ok (name_ok (isName_of_ofKeyword? hw) hr) _

/-- A field may have a keyword's name. -/
theorem naming_fieldName : Naming id fieldName where
  lexical := lexical_fieldName
  words hw hr := expecting_ok ((orElse_of_refuses (wordless_fieldReference.words hw hr)).trans
    (naming_nameString.words hw hr)) _

/-- An argument of a function may be a field with a keyword's name. -/
theorem naming_functionArgument :
    Naming (fun s => (⟨.string s, .fieldReference⟩ : Argument)) functionArgument where
  lexical := lexical_functionArgument
  words hw hr :=
    expecting_ok ((orElse_of_refuses ((wordless_literalValue.words hw hr).bind _)).trans
      (map_ok (naming_fieldName.words hw hr) _)) _

/-! ### Readers of connectives -/

/-- The reader makes the same of a keyword in whatever letters it is written. -/
def Uniform (p : Grammar α) : Prop := ∀ op,
  (∃ a, ∀ w rest, Connective.ofKeyword? w = some op → Ends rest → p (w ++ rest) = .ok a rest) ∨
    ∀ w rest, Connective.ofKeyword? w = some op → Ends rest → p.Refuses (w ++ rest)

theorem Wordless.uniform (h : Wordless p) : Uniform p :=
  fun _ => .inr fun _ _ hw hr => h.words hw hr

/-- A keyword is read or refused in whatever letters it is written. -/
theorem uniform_keyword (op : Connective) : Uniform (keyword op) := by
  intro k
  by_cases hk : k = op
  · subst hk
    exact .inl ⟨(), fun _ _ hw hr => keyword_ok hw hr⟩
  · refine .inr fun w rest hw hr => refuses_keyword ?_
    rw [headWord_keyword hw hr, hw]
    exact fun e => hk (Option.some.inj e)

theorem uniform_connective : Uniform connective :=
  fun op => .inl ⟨op, fun _ _ hw hr => connective_ok hw hr⟩

/-! ### Calls -/

/-- No reserved call has the name of a keyword. -/
theorem callForm_of_ofKeyword? (h : Connective.ofKeyword? w = some op) :
    callForm (String.ofList w) = .plain := by
  have plain : ∀ e ∈ callForms, Connective.ofKeyword? e.1.toList = none := by decide
  have missing : callForms.lookup (String.ofList w) = none := by
    rw [List.lookup_eq_none_iff]
    rintro ⟨name, form⟩ he
    rw [bne_iff_ne]
    rintro rfl
    have none := plain _ he
    rw [String.toList_ofList, h] at none
    cases none
  rw [callForm, missing, Option.getD_none]

/-! ### Negations -/

/-- The text starts with `NOT`, and goes on with `rest`. -/
def Negates (cs rest : List Char) : Prop :=
  ∃ w, skipTrivia cs = w ++ rest ∧ Connective.ofKeyword? w = some .not ∧ Ends rest

namespace Negates

variable {cs : List Char}

/-- The `NOT` at the start is read as one. -/
theorem keyword (h : Negates cs rest) : Dsl.keyword .not (skipTrivia cs) = .ok () rest := by
  obtain ⟨w, e, hw, hr⟩ := h
  exact e ▸ keyword_ok hw hr

/-- What reads no keyword refuses a text that starts with `NOT`. -/
theorem refuses (h : Negates cs rest) (hp : Wordless p) : p.Refuses (skipTrivia cs) := by
  obtain ⟨w, e, hw, hr⟩ := h
  exact e ▸ hp.words hw hr

theorem naming {f : String → α} (h : Negates cs rest) (hp : Naming f p) :
    ∃ a, p (skipTrivia cs) = .ok a rest := by
  obtain ⟨w, e, hw, hr⟩ := h
  exact ⟨_, e ▸ hp.words hw hr⟩

/-- Blanks and comments in front do not matter. -/
theorem congr {cs' : List Char} (h : Negates cs rest) (hc : skipTrivia cs' = skipTrivia cs) :
    Negates cs' rest := by
  rwa [Negates, hc]

/-- No other connective is there. -/
theorem refuses_keyword (h : Negates cs rest) (hop : op ≠ .not) :
    (Dsl.keyword op).Refuses (skipTrivia cs) := by
  obtain ⟨w, e, hw, hr⟩ := h
  refine e ▸ Dsl.refuses_keyword ?_
  rw [headWord_keyword hw hr, hw]
  exact fun same => hop (Option.some.inj same).symm

end Negates

/-- The text starts with what an operand may start with, `NOT` included. -/
def StartsOperand (cs : List Char) : Prop :=
  ∃ c t, skipTrivia cs = c :: t ∧ (Text.isNameStart c = true ∨ c = '(' ∨ c = '$')

/-- A `NOT` starts an operand. -/
theorem Negates.startsOperand {cs : List Char} (h : Negates cs rest) : StartsOperand cs := by
  obtain ⟨w, e, hw, -⟩ := h
  obtain ⟨c, t, rfl, hc⟩ := exists_cons_of_ofKeyword? hw
  exact ⟨c, _, e, .inl hc⟩

theorem StartsOperand.ne_closing {cs : List Char} (h : StartsOperand cs) :
    ∀ u, skipTrivia cs ≠ ')' :: u := by
  obtain ⟨c, t, e, hc⟩ := h
  rintro u hu
  rw [e] at hu
  cases hu
  revert hc
  decide

end Rulebook.Dsl
