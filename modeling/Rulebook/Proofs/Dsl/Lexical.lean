import Rulebook.Lint.Token
import Rulebook.Proofs.Dsl.Cut
import Rulebook.Proofs.Dsl.Parentheses

/-!
# Rulebook — Proofs — Dsl — Lexical

Readers that go by lexemes.  A lexeme *stands* before the rest of a text if it cannot be any longer
there (`Lexeme.Stands`).  What the readers of names, keywords, references, literals, comparisons and
punctuation make of a text hangs on the lexeme at its start and on nothing behind it (`Lexical`).

Two readers are not like that: `naturalBelow` takes the digits in front of a point, and the equals
sign of a parameter may be the first half of a comparison.  They stop inside a lexeme, where nothing
that is committed to next can be read (`Midway`).
-/

namespace Rulebook.Dsl

open Grammar
open Text (StartsOutside startsOutside_cons)

/-! ### Lexemes -/

/-- A word of the language, or a character that is none. -/
inductive Lexeme where
  | word (w : List Char)
  /-- Digits, and more of them behind a point unless there are none. -/
  | number (negative : Bool) (whole places : List Char)
  /-- A string literal; the body includes the closing quote. -/
  | string (body : List Char)
  | reference (field : List Char)
  /-- A comparison symbol. -/
  | symbol (s : List Char)
  | char (c : Char)

/-- A character that starts no longer lexeme, if it is neither a sign in front of a number nor the
first half of a symbol. -/
def isLone (c : Char) : Bool :=
  isSolid c && !Text.isNameStart c && !c.isDigit && !(['"', '$', '>', '<'].contains c)

namespace Lexeme

/-- The point and the digits behind it. -/
def placesText : List Char → List Char
  | [] => []
  | d :: ds => '.' :: d :: ds

def text : Lexeme → List Char
  | word w => w
  | number negative whole places =>
    (if negative then ['-'] else []) ++ (whole ++ placesText places)
  | string body => '"' :: body
  | reference field => '$' :: '\x7b' :: (field ++ ['\x7d'])
  | symbol s => s
  | char c => [c]

/-- The lexeme is well formed, and what follows does not make it longer. -/
def Stands : Lexeme → List Char → Prop
  | word w, rest => Text.isName w = true ∧ Ends rest
  | number _ whole places, rest =>
    whole ≠ [] ∧ (∀ c ∈ whole, c.isDigit = true) ∧ (∀ c ∈ places, c.isDigit = true) ∧
      StartsOutside Char.isDigit rest ∧
      (places = [] → ∀ t, rest = '.' :: t → StartsOutside Char.isDigit t)
  | string body, _ => ∃ s, ∀ t, stringRest (body ++ t) = .ok s t
  | reference field, _ => Text.isName field = true
  | symbol s, rest => s ∈ Lint.symbols ∧ (s.length = 1 → ∀ t, rest ≠ '=' :: t)
  | char c, rest =>
    isLone c = true ∧ (c = '-' → StartsOutside Char.isDigit rest) ∧
      (c = '=' ∨ c = '!' → ∀ t, rest ≠ '=' :: t)

/-- The characters that a lexeme of this kind may start with. -/
def starts : Lexeme → Char → Bool
  | word _, c => Text.isNameStart c
  | number _ _ _, c => isNumberStart c
  | string _, c => ['"'].contains c
  | reference _, c => ['$'].contains c
  | symbol _, c => ['>', '<', '=', '!'].contains c
  | char d, c => c = d && isLone c

def isWord : Lexeme → Bool
  | word _ => true
  | _ => false

/-- The number of parentheses that the lexeme opens. -/
def opened : Lexeme → Nat
  | char '(' => 1
  | _ => 0

/-- The number of parentheses that the lexeme closes. -/
def closed : Lexeme → Nat
  | char ')' => 1
  | _ => 0

variable {l : Lexeme} {rest : List Char}

/-- The text of a lexeme starts with a character that starts it. -/
theorem Stands.exists_cons (h : l.Stands rest) : ∃ c t, l.text = c :: t ∧ l.starts c = true := by
  cases l with
  | word w => exact exists_cons_of_isName h.1
  | number negative whole places =>
      obtain ⟨hne, hd, -⟩ := h
      obtain ⟨c, t, e, hc⟩ := exists_numberStart_of_sign negative hne hd (placesText places)
      exact ⟨c, t, by rw [text, e], hc⟩
  | string body => exact ⟨'"', body, rfl, rfl⟩
  | reference field => exact ⟨'$', _, rfl, rfl⟩
  | symbol s =>
      have starts : ∀ s ∈ Lint.symbols, ∃ c t, s = c :: t ∧ ['>', '<', '=', '!'].contains c := by
        simp [Lint.symbols]
      exact starts s h.1
  | char c => exact ⟨c, [], rfl, by simp [Lexeme.starts, h.1]⟩

/-- A lexeme starts with no blank, and with no mark of a comment. -/
theorem isSolid_of_starts {c : Char} (h : l.starts c = true) : isSolid c = true := by
  cases l with
  | word _ => exact isSolid_of_isNameStart h
  | number _ _ _ => exact isSolid_of_isNumberStart h
  | string _ => exact isSolid_of_class rfl h
  | reference _ => exact isSolid_of_class rfl h
  | symbol _ => exact isSolid_of_class rfl h
  | char d =>
      simp only [Lexeme.starts, isLone, Bool.and_eq_true] at h
      exact h.2.1.1.1

/-- Nothing is skipped in front of a lexeme. -/
theorem Stands.skipTrivia (h : l.Stands rest) : skipTrivia (l.text ++ rest) = l.text ++ rest := by
  obtain ⟨c, t, e, hc⟩ := h.exists_cons
  rw [e]
  exact skipTrivia_solid _ (isSolid_of_starts hc)

theorem Stands.ne {d : Char} (h : l.Stands rest) (hd : l.starts d = false) :
    ∀ t, l.text ++ rest ≠ d :: t := by
  intro t e
  obtain ⟨c, u, hu, hc⟩ := h.exists_cons
  rw [hu] at e
  cases e
  rw [hc] at hd
  cases hd

/-- In front of a lexeme no run goes on that its first characters are outside of. -/
theorem Stands.startsOutside {inside : Char → Bool} (h : l.Stands rest)
    (hs : ∀ c, l.starts c = true → inside c = false) : StartsOutside inside (l.text ++ rest) := by
  obtain ⟨c, u, hu, hc⟩ := h.exists_cons
  rw [hu]
  exact startsOutside_cons (hs c hc)

/-- None of a few characters is in a class that has none of them. -/
theorem outside_of_contains {few : List Char} {inside : Char → Bool} {c : Char}
    (hf : few.all (fun d => !inside d) = true) (h : few.contains c = true) : inside c = false := by
  cases hc : inside c with
  | false => rfl
  | true => exact absurd (List.contains_iff_mem.mp h) (Text.not_mem_of_class hf hc)

theorem starts_char {c d : Char} (h : isLone d = false) : (char c).starts d = false := by
  rw [Lexeme.starts, h, Bool.and_false]

/-- Only words start like names. -/
theorem isNameStart_of_starts {c : Char} (hl : l.isWord = false) (h : l.starts c = true) :
    Text.isNameStart c = false := by
  cases l with
  | word _ => cases hl
  | number _ _ _ =>
      cases hc : Text.isNameStart c with
      | false => rfl
      | true => rw [Lexeme.starts, isNumberStart_of_isNameStart hc] at h; cases h
  | string _ => exact outside_of_contains (by decide) h
  | reference _ => exact outside_of_contains (by decide) h
  | symbol _ => exact outside_of_contains (by decide) h
  | char d =>
      simp only [Lexeme.starts, isLone, Bool.and_eq_true, Bool.not_eq_true'] at h
      exact h.2.1.1.2

/-- Only numbers start with digits. -/
theorem isDigit_of_starts {c : Char} (hl : ∀ n w p, l ≠ .number n w p) (h : l.starts c = true) :
    c.isDigit = false := by
  cases l with
  | number n w p => exact absurd rfl (hl n w p)
  | word _ => exact isDigit_of_isNameStart h
  | string _ => exact outside_of_contains (by decide) h
  | reference _ => exact outside_of_contains (by decide) h
  | symbol _ => exact outside_of_contains (by decide) h
  | char d =>
      simp only [Lexeme.starts, isLone, Bool.and_eq_true, Bool.not_eq_true'] at h
      exact h.2.1.2

/-- The text of a number is its sign, its digits and its places. -/
theorem text_number (negative : Bool) (whole places rest : List Char) :
    (number negative whole places).text ++ rest =
      (if negative then ['-'] else []) ++ (whole ++ (placesText places ++ rest)) := by
  simp [text]

/-- A lexeme that is no word starts with no character of a name. -/
theorem Stands.exists_plain (h : l.Stands rest) (hl : l.isWord = false) :
    ∃ c t, l.text ++ rest = c :: t ∧ Text.isNameStart c = false := by
  obtain ⟨c, t, e, hc⟩ := h.exists_cons
  exact ⟨c, t ++ rest, by rw [e, List.cons_append], isNameStart_of_starts hl hc⟩

end Lexeme

/-! ### Verdicts -/

variable {α β : Type} {p q : Grammar α} {l : Lexeme}

/-- What a reader makes of a lexeme, whatever follows.  Parentheses are read on their own. -/
inductive Verdict (p : Grammar α) (l : Lexeme) : Prop where
  | reads (a : α) (ho : l.opened = 0) (hc : l.closed = 0)
      (h : ∀ rest, l.Stands rest → p (l.text ++ rest) = .ok a rest)
  | refuses (h : ∀ rest, l.Stands rest → p.Refuses (l.text ++ rest))
  | stops (h : ∀ rest, l.Stands rest → (p (l.text ++ rest)).Yields none rest)

/-- What the reader makes of a text hangs on the lexeme at its start. -/
def Lexical (p : Grammar α) : Prop := ∀ l, Verdict p l

namespace Verdict

/-- A reader has the verdict of another that does the same in front of the lexeme. -/
theorem congr (h : ∀ rest, l.Stands rest → p (l.text ++ rest) = q (l.text ++ rest))
    (hq : Verdict q l) : Verdict p l := by
  cases hq with
  | reads a ho hc hq => exact .reads a ho hc fun rest hr => (h rest hr).trans (hq rest hr)
  | refuses hq =>
      refine .refuses fun rest hr => ?_
      rw [Refuses, h rest hr]
      exact hq rest hr
  | stops hq =>
      refine .stops fun rest hr => ?_
      rw [h rest hr]
      exact hq rest hr

theorem map (h : Verdict p l) (f : α → β) : Verdict (do let x ← p; return f x) l := by
  cases h with
  | reads a ho hc h => exact .reads (f a) ho hc fun rest hr => map_ok (h rest hr) f
  | refuses h => exact .refuses fun rest hr => (h rest hr).bind _
  | stops h => exact .stops fun rest hr => bind_none_yields (h rest hr)

theorem marked (h : Verdict p l) (m : Mark) : Verdict (Grammar.marked m p) l := by
  cases h with
  | reads a ho hc h => exact .reads a ho hc fun rest hr => marked_ok (h rest hr) m
  | refuses h => exact .refuses fun rest hr => (h rest hr).marked m
  | stops h => exact .stops fun rest hr => marked_yields (h rest hr) m

theorem commit (h : Verdict p l) : Verdict (Grammar.commit p) l := by
  cases h with
  | reads a ho hc h => exact .reads a ho hc fun rest hr => commit_ok (h rest hr)
  | refuses h => exact .stops fun rest hr => (h rest hr).fails.commit rest
  | stops h => exact .stops fun rest hr => commit_yields (h rest hr)

/-- Of two verdicts on a lexeme the first one counts, unless it refuses. -/
theorem orElse (hp : Verdict p l) (hq : Verdict q l) : Verdict (p <|> q) l := by
  cases hp with
  | reads a ho hc h => exact .reads a ho hc fun rest hr => orElse_of_ok (h rest hr)
  | stops h => exact .stops fun rest hr => orElse_yields (h rest hr)
  | refuses h =>
      cases hq with
      | reads a ho hc hq =>
          exact .reads a ho hc fun rest hr => (orElse_of_refuses (h rest hr)).trans (hq rest hr)
      | refuses hq => exact .refuses fun rest hr => (h rest hr).orElse (hq rest hr)
      | stops hq =>
          exact .stops fun rest hr => by
            rw [orElse_of_refuses (h rest hr)]
            exact hq rest hr

end Verdict

namespace Lexical

/-- The image of what is read from a lexeme is read from it. -/
theorem map (h : Lexical p) (f : α → β) : Lexical (do let x ← p; return f x) :=
  fun l => (h l).map f

theorem expecting (h : Lexical p) (what : String) : Lexical (Grammar.expecting what p) :=
  fun l => (h l).marked _

theorem commit (h : Lexical p) : Lexical (Grammar.commit p) := fun l => (h l).commit

/-- Two readers that go by lexemes are alternatives that do. -/
theorem orElse (hp : Lexical p) (hq : Lexical q) : Lexical (p <|> q) :=
  fun l => (hp l).orElse (hq l)

end Lexical

/-! ### Words -/

/-- A reader of words refuses every other lexeme. -/
theorem Verdict.of_isWord
    (refuses : ∀ c t, Text.isNameStart c = false → p.Refuses (c :: t))
    (word : ∀ w, Verdict p (.word w)) : Lexical p := by
  intro l
  cases hl : l.isWord with
  | true =>
      cases l with
      | word w => exact word w
      | _ => cases hl
  | false =>
      refine .refuses fun rest hr => ?_
      obtain ⟨c, t, e, hc⟩ := hr.exists_plain hl
      rw [e]
      exact refuses c t hc

/-- A name goes by lexemes. -/
theorem lexical_name : Lexical name :=
  .of_isWord (fun _ _ hc => refuses_name (startsOutside_cons hc)) fun w =>
    .reads w rfl rfl fun _ hr => name_ok hr.1 hr.2

theorem lexical_nameString : Lexical nameString := lexical_name.map _

/-- A keyword goes by lexemes. -/
theorem lexical_keyword (op : Connective) : Lexical (keyword op) := by
  refine .of_isWord (fun _ _ hc => refuses_keyword_of_none (plain_of_start hc) op) fun w => ?_
  by_cases hw : Connective.ofKeyword? w = some op
  · exact .reads () rfl rfl fun rest hr => keyword_ok hw hr.2
  · refine .refuses fun rest hr => refuses_keyword ?_
    rwa [Lexeme.text, headWord_append (isNamePart_of_isName hr.1) hr.2]

/-- A connective goes by lexemes. -/
theorem lexical_connective : Lexical connective :=
  have one (op : Connective) : Lexical (do keyword op; return op : Grammar Connective) :=
    (lexical_keyword op).map _
  (one .and).orElse ((one .or).orElse ((one .not).orElse ((one .xor).orElse (one .implies))))

/-- A word refuses every other lexeme. -/
theorem refuses_word_lexeme {text : String} {rest : List Char} (h : isName text = true)
    (hl : l ≠ .word text.toList) (hr : l.Stands rest) : (word text).Refuses (l.text ++ rest) := by
  cases hw : l.isWord with
  | true =>
      cases l with
      | word w =>
          refine refuses_word (isNamePart_of_isName h) fun e => hl ?_
          rw [Lexeme.text, headWord_append (isNamePart_of_isName hr.1) hr.2] at e
          rw [e]
      | _ => cases hw
  | false =>
      obtain ⟨d, ds, e, hd⟩ := exists_cons_of_isName h
      obtain ⟨c, t, ht, hc⟩ := hr.exists_plain hw
      rw [ht]
      refine refuses_word_of_ne e ?_
      rintro rfl
      rw [hd] at hc
      cases hc

/-- A word goes by lexemes. -/
theorem lexical_word {text : String} (h : isName text = true) : Lexical (word text) := by
  intro l
  by_cases hl : l = .word text.toList
  · subst hl
    exact .reads () rfl rfl fun rest hr => word_ok hr.2
  · exact .refuses fun rest hr => refuses_word_lexeme h hl hr

/-- A reference goes by lexemes. -/
theorem lexical_fieldReference : Lexical fieldReference := by
  have refuses {l : Lexeme} (hl : l.starts '$' = false) : Verdict fieldReference l :=
    .refuses fun _ hr => refuses_fieldReference (hr.ne hl)
  intro l
  cases l with
  | reference field =>
      refine .reads (String.ofList field) rfl rfl fun rest hr => ?_
      have name : isName (String.ofList field) = true := by rwa [isName, String.toList_ofList]
      have read := fieldReference_ok name rest
      rw [referenceText, String.toList_ofList] at read
      exact read
  | word _ => exact refuses rfl
  | number _ _ _ => exact refuses rfl
  | string _ => exact refuses rfl
  | symbol _ => exact refuses rfl
  | char _ => exact refuses (Lexeme.starts_char (by decide))

/-- A field goes by lexemes. -/
theorem lexical_fieldName : Lexical fieldName :=
  (lexical_fieldReference.orElse lexical_nameString).expecting "field name"

/-! ### Literals -/

/-- A string literal goes by lexemes. -/
theorem lexical_stringLiteral : Lexical stringLiteral := by
  have refuses {l : Lexeme} (hl : l.starts '"' = false) : Verdict stringLiteral l :=
    .refuses fun _ hr => refuses_stringLiteral (hr.ne hl)
  intro l
  cases l with
  | string body =>
      by_cases hb : ∃ s, ∀ t, stringRest (body ++ t) = .ok s t
      · obtain ⟨s, hs⟩ := hb
        refine .reads (String.ofList s) rfl rfl fun rest _ => ?_
        exact (bind_ok (char_ok _ _)).trans (bind_ok (hs rest))
      · exact .refuses fun rest hr => absurd hr hb
  | word _ => exact refuses rfl
  | number _ _ _ => exact refuses rfl
  | reference _ => exact refuses rfl
  | symbol _ => exact refuses rfl
  | char _ => exact refuses (Lexeme.starts_char (by decide))

/-- What is read behind the whole part of a number. -/
theorem optional_places {negative : Bool} {whole places rest : List Char}
    (h : (Lexeme.number negative whole places).Stands rest) :
    optional (do char '.'; digits : Grammar (List Char)) (Lexeme.placesText places ++ rest) =
      .ok (if places = [] then none else some places) rest := by
  obtain ⟨-, -, hp, hr, point⟩ := h
  cases places with
  | nil =>
      refine optional_of_refuses ?_
      rw [Lexeme.placesText, List.nil_append]
      by_cases hc : ∃ t, rest = '.' :: t
      · obtain ⟨t, rfl⟩ := hc
        exact Refuses.of_bind (char_ok _ _) (refuses_digits (point rfl t rfl))
      · exact (refuses_char fun r e => hc ⟨r, e⟩).bind _
  | cons d ds =>
      refine optional_of_ok ((bind_ok (char_ok _ _)).trans ?_)
      exact digits_ok (List.cons_ne_nil d ds) hp hr

/-- The digits of a number are read up to its point or its end. -/
theorem digits_whole {negative : Bool} {whole places rest : List Char}
    (h : (Lexeme.number negative whole places).Stands rest) :
    digits (whole ++ (Lexeme.placesText places ++ rest)) =
      .ok whole (Lexeme.placesText places ++ rest) := by
  obtain ⟨hne, hd, -, hr, -⟩ := h
  refine digits_ok hne hd ?_
  cases places with
  | nil => exact hr
  | cons d ds => exact startsOutside_cons (by decide)

/-- The value of a number, if it is in range. -/
def numeralValue? (negative : Bool) (whole places : List Char) : Option Literal :=
  if places = [] then
    let n : Int := if negative then -(Decimal.valueOf whole) else Decimal.valueOf whole
    if Literal.inRange n then some (.int (Int64.ofInt n)) else none
  else
    some (.float
      (Binary64.ofDecimal negative (Decimal.valueOf (whole ++ places)) (-places.length)))

/-- A number is read, or it fails for good if it is out of range. -/
theorem number_yields {negative : Bool} {whole places rest : List Char}
    (h : (Lexeme.number negative whole places).Stands rest) :
    (number ((Lexeme.number negative whole places).text ++ rest)).Yields
      (numeralValue? negative whole places) rest := by
  have noSign := ne_minus_of_digits h.1 h.2.1 (Lexeme.placesText places ++ rest)
  obtain ⟨sign, hs, hsign⟩ := optional_minus negative noSign
  rw [Lexeme.text_number, number, bind_ok hs, bind_ok (digits_whole h), bind_ok (optional_places h),
    numeralValue?, hsign]
  by_cases hp : places = []
  · rw [if_pos hp, if_pos hp]
    dsimp only
    by_cases hr : Literal.inRange
        (if negative = true then -(Decimal.valueOf whole : Int) else Decimal.valueOf whole) = true
    · rw [if_pos hr, if_pos hr]
      exact pure_apply _ _
    · rw [if_neg hr, if_neg hr]
      exact ⟨_, _, rfl, rfl⟩
  · rw [if_neg hp, if_neg hp]
    exact pure_apply _ _

/-- Digits refuse every lexeme that is no number. -/
theorem refuses_digits_lexeme {rest : List Char} (hl : ∀ n w p, l ≠ .number n w p)
    (hr : l.Stands rest) : digits.Refuses (l.text ++ rest) :=
  refuses_digits (hr.startsOutside fun _ => Lexeme.isDigit_of_starts hl)

/-- A number refuses every other lexeme. -/
theorem refuses_number_lexeme {rest : List Char} (hl : ∀ n w p, l ≠ .number n w p)
    (hr : l.Stands rest) : number.Refuses (l.text ++ rest) := by
  by_cases sign : l = .char '-'
  · -- a sign, and no digits behind it
    subst sign
    exact Refuses.of_bind (optional_of_ok (char_ok _ _)) ((refuses_digits (hr.2.1 rfl)).bind _)
  · have other : l.starts '-' = false := by
      cases l with
      | number n w p => exact absurd rfl (hl n w p)
      | char d =>
          have hd : '-' ≠ d := fun e => sign (e ▸ rfl)
          rw [Lexeme.starts, decide_eq_false hd, Bool.false_and]
      | _ => rfl
    exact Refuses.of_bind (optional_of_refuses (refuses_char (hr.ne other)))
      ((refuses_digits_lexeme hl hr).bind _)

/-- A number goes by lexemes. -/
theorem lexical_number : Lexical number := by
  have refuses {l : Lexeme} (hl : ∀ n w p, l ≠ .number n w p) : Verdict number l :=
    .refuses fun _ hr => refuses_number_lexeme hl hr
  intro l
  cases l with
  | number negative whole places =>
      have value {v : Option Literal} (hv : numeralValue? negative whole places = v) rest
          (hr : (Lexeme.number negative whole places).Stands rest) :
          (number ((Lexeme.number negative whole places).text ++ rest)).Yields v rest :=
        hv ▸ number_yields hr
      cases hv : numeralValue? negative whole places with
      | some v => exact .reads v rfl rfl (value hv)
      | none => exact .stops (value hv)
  | char _ => exact refuses nofun
  | word _ => exact refuses nofun
  | string _ => exact refuses nofun
  | reference _ => exact refuses nofun
  | symbol _ => exact refuses nofun

/-- A literal goes by lexemes. -/
theorem lexical_literalValue : Lexical literalValue := by
  have spelled (w : String) (v : Literal) (hw : isName w = true) :
      Lexical (do word w; return v : Grammar Literal) := (lexical_word hw).map _
  have quoted : Lexical (do let s ← stringLiteral; return .string s : Grammar Literal) :=
    lexical_stringLiteral.map _
  exact (quoted.orElse ((spelled "true" (.bool true) (by decide)).orElse
    ((spelled "false" (.bool false) (by decide)).orElse
    ((spelled "null" .null (by decide)).orElse lexical_number)))).expecting "literal value"

/-- An operand goes by lexemes. -/
theorem lexical_operand : Lexical operand :=
  ((lexical_fieldReference.map fun s => (Literal.string s, OperandKind.fieldReference)).orElse
    (lexical_literalValue.map fun v => (v, OperandKind.literal))).expecting "value"

/-- An argument of a function goes by lexemes. -/
theorem lexical_functionArgument : Lexical functionArgument :=
  ((lexical_literalValue.map fun v => (⟨v, .literal⟩ : Argument)).orElse
    (lexical_fieldName.map fun s => (⟨.string s, .fieldReference⟩ : Argument))).expecting "argument"

/-- A payload goes by lexemes. -/
theorem lexical_payload : Lexical payload := by
  refine Lexical.expecting (fun l => ?_) "JSON payload string"
  cases lexical_stringLiteral l with
  | reads s ho hc h =>
      cases hj : Json.parse? s with
      | some j => exact .reads (.ofJson j) ho hc fun rest hr => by simp only [h rest hr, hj]
      | none => exact .refuses fun rest hr =>
          ⟨.bare, l.text ++ rest, by simp only [h rest hr, hj], rfl⟩
  | refuses h =>
      refine .refuses fun rest hr => ?_
      obtain ⟨f, t, e, hf⟩ := h rest hr
      exact ⟨f, t, by simp only [e], hf⟩
  | stops h =>
      refine .stops fun rest hr => ?_
      obtain ⟨f, t, e, hf⟩ := h rest hr
      exact ⟨f, t, by simp only [e], hf⟩

/-! ### Comparisons -/

/-- The reader of the comparisons that are words. -/
def comparisonWord : Grammar Comparison :=
  (do word "contains"; return .contains) <|> (do word "startsWith"; return .startsWith) <|>
    (do word "endsWith"; return .endsWith)

/-- Where no symbol stands, a comparison is a word for one. -/
theorem comparison_of_refuses {cs : List Char} (h : ∀ s ∈ Lint.symbols, (exact s).Refuses cs) :
    comparison cs = comparisonWord cs := by
  have one (s : List Char) (hs : s ∈ Lint.symbols) (c : Comparison) (q : Grammar Comparison) :
      ((do exact s; return c : Grammar Comparison) <|> q) cs = q cs :=
    orElse_of_refuses ((h s hs).bind _)
  rw [comparison, one _ (by decide), one _ (by decide), one _ (by decide), one _ (by decide),
    one _ (by decide), one _ (by decide)]
  rfl

/-- A comparison has a verdict on every symbol. -/
theorem verdict_comparison_symbol (s : List Char) : Verdict comparison (.symbol s) := by
  by_cases hs : s ∈ Lint.symbols
  swap
  · exact .refuses fun _ hr => absurd hr.1 hs
  -- the shorter symbols are read where no equals sign follows
  have shorter {c : Char} {rest : List Char} (hr : (Lexeme.symbol [c]).Stands rest) :
      (exact [c, '=']).Refuses (c :: rest) := by
    refine refuses_exact ?_
    rintro ⟨t, e⟩
    cases e
    exact hr.2 rfl _ rfl
  simp only [Lint.symbols, List.mem_cons, List.not_mem_nil, or_false] at hs
  rcases hs with rfl | rfl | rfl | rfl | rfl | rfl
  · exact .reads .greaterThanOrEqual rfl rfl fun _ _ => rfl
  · exact .reads .lessThanOrEqual rfl rfl fun _ _ => rfl
  · exact .reads .equals rfl rfl fun _ _ => rfl
  · exact .reads .notEquals rfl rfl fun _ _ => rfl
  · refine .reads .greaterThan rfl rfl fun rest hr => ?_
    exact (orElse_of_refuses ((shorter hr).bind _)).trans rfl
  · refine .reads .lessThan rfl rfl fun rest hr => ?_
    have greater {s : List Char} {c : Char} (hc : c ≠ '<') :
        (exact (c :: s)).Refuses ('<' :: rest) := refuses_exact fun ⟨_, e⟩ => hc (List.cons.inj e).1
    exact (orElse_of_refuses ((greater (by decide)).bind _)).trans
      ((orElse_of_refuses ((greater (by decide)).bind _)).trans
        ((orElse_of_refuses ((shorter hr).bind _)).trans rfl))

/-- No other lexeme starts with a comparison symbol. -/
theorem refuses_symbol {l : Lexeme} {s rest : List Char} (hs : s ∈ Lint.symbols)
    (hl : ∀ t, l ≠ .symbol t) (hr : l.Stands rest) : (exact s).Refuses (l.text ++ rest) := by
  obtain ⟨d, t, rfl, hd, ht⟩ : ∃ d t, s = d :: t ∧ ['>', '<', '=', '!'].contains d = true ∧
      (isLone d = true → (d = '=' ∨ d = '!') ∧ t = ['=']) := by
    have shape : ∀ s ∈ Lint.symbols, ∃ d t, s = d :: t ∧
        ['>', '<', '=', '!'].contains d = true ∧
          (isLone d = true → (d = '=' ∨ d = '!') ∧ t = ['=']) := by
      simp [Lint.symbols, isLone]
    exact shape s hs
  refine refuses_exact ?_
  rintro ⟨u, e⟩
  have first {inside : Char → Bool} (hf : ['>', '<', '=', '!'].all (fun d => !inside d) = true) :
      inside d = false := Lexeme.outside_of_contains hf hd
  cases l with
  | symbol t => exact hl t rfl
  | word _ => exact hr.ne (first rfl) _ e.symm
  | number _ _ _ => exact hr.ne (first rfl) _ e.symm
  | string _ => exact hr.ne (first rfl) _ e.symm
  | reference _ => exact hr.ne (first rfl) _ e.symm
  | char c =>
      obtain ⟨rfl, behind⟩ := List.cons.inj e
      obtain ⟨half, rfl⟩ := ht hr.1
      exact hr.2.2 half u behind.symm

/-- Comparisons are symbols and a few words. -/
theorem refuses_comparison_lexeme {rest : List Char} (hs : ∀ s, l ≠ .symbol s)
    (hw : ∀ text ∈ ["contains", "startsWith", "endsWith"], l ≠ .word text.toList)
    (hr : l.Stands rest) : comparison.Refuses (l.text ++ rest) := by
  have word {text : String} (ht : text ∈ ["contains", "startsWith", "endsWith"])
      (c : Comparison) : (do word text; return c : Grammar Comparison).Refuses (l.text ++ rest) := by
    have names : ∀ text ∈ ["contains", "startsWith", "endsWith"], isName text = true := by decide
    exact (refuses_word_lexeme (names text ht) (hw text ht) hr).bind _
  rw [Refuses, comparison_of_refuses fun _ h => refuses_symbol h hs hr]
  exact (word (by decide) _).orElse ((word (by decide) _).orElse (word (by decide) _))

/-- A comparison goes by lexemes. -/
theorem lexical_comparison : Lexical comparison := by
  have spelled (w : String) (c : Comparison) (hw : isName w = true) :
      Lexical (do word w; return c : Grammar Comparison) := (lexical_word hw).map _
  have words : Lexical comparisonWord :=
    (spelled "contains" .contains (by decide)).orElse
      ((spelled "startsWith" .startsWith (by decide)).orElse
        (spelled "endsWith" .endsWith (by decide)))
  have other {l : Lexeme} (hl : ∀ t, l ≠ .symbol t) : Verdict comparison l :=
    .congr (fun _ hr => comparison_of_refuses fun _ hs => refuses_symbol hs hl hr) (words l)
  intro l
  cases l with
  | symbol s => exact verdict_comparison_symbol s
  | word _ => exact other nofun
  | number _ _ _ => exact other nofun
  | string _ => exact other nofun
  | reference _ => exact other nofun
  | char _ => exact other nofun

/-! ### Punctuation -/

/-- The characters that are read by themselves wherever they stand. -/
def punctuationChars : List Char := [',', '[', ']', '(', ')']

/-- Such a character is a lexeme of its own, and starts no other one. -/
theorem refuses_char_lexeme {c : Char} (hc : punctuationChars.contains c = true)
    (hl : l ≠ .char c) {rest : List Char} (hr : l.Stands rest) :
    (char c).Refuses (l.text ++ rest) := by
  refine refuses_char (hr.ne ?_)
  cases l with
  | char d =>
      have other : c ≠ d := fun e => hl (e ▸ rfl)
      rw [Lexeme.starts, decide_eq_false other, Bool.false_and]
  | word _ => exact Lexeme.outside_of_contains rfl hc
  | number _ _ _ => exact Lexeme.outside_of_contains rfl hc
  | string _ => exact Lexeme.outside_of_contains rfl hc
  | reference _ => exact Lexeme.outside_of_contains rfl hc
  | symbol _ => exact Lexeme.outside_of_contains rfl hc

/-- A comma or a bracket goes by lexemes. -/
theorem lexical_char {c : Char} (hc : [',', '[', ']'].contains c = true) : Lexical (char c) := by
  have listed : c = ',' ∨ c = '[' ∨ c = ']' := by simpa using hc
  intro l
  by_cases hl : l = .char c
  · subst hl
    rcases listed with rfl | rfl | rfl <;>
      exact .reads () rfl rfl fun rest _ => char_ok _ rest
  · refine .refuses fun rest hr => refuses_char_lexeme ?_ hl hr
    rcases listed with rfl | rfl | rfl <;> decide

/-! ### Half a lexeme -/

/-- A text inside a lexeme: a point and digits are left of a number, or an equals sign of a
comparison. -/
def Midway (cs : List Char) : Prop := ∃ t, cs = '.' :: t ∨ cs = '=' :: t

/-- Midway in a lexeme there is a point or an equals sign. -/
theorem Midway.exists_cons {cs : List Char} (h : Midway cs) :
    ∃ c t, cs = c :: t ∧ ['.', '='].contains c = true := by
  obtain ⟨t, rfl | rfl⟩ := h
  · exact ⟨'.', t, rfl, rfl⟩
  · exact ⟨'=', t, rfl, rfl⟩

/-- What the reader makes of a text hangs on the lexeme at its start, but it may stop inside of
it. -/
def Halting (p : Grammar α) : Prop := ∀ l, Verdict p l ∨
  ∃ a, ∀ rest, l.Stands rest → ∃ t, p (l.text ++ rest) = .ok a t ∧ Midway t

/-- The digits of a number without a sign are read, and the point and those behind it are left. -/
theorem naturalBelow_number {whole places rest : List Char} {bound : Nat}
    (h : (Lexeme.number false whole places).Stands rest) (hb : Decimal.valueOf whole < bound) :
    naturalBelow bound ((Lexeme.number false whole places).text ++ rest) =
      .ok (Decimal.valueOf whole) (Lexeme.placesText places ++ rest) := by
  refine expecting_ok ?_ _
  have read := digits_whole h
  rw [Lexeme.text_number]
  simp only [Bool.false_eq_true, if_false, List.nil_append, read, if_pos hb]

/-- A natural number goes by lexemes, or stops in front of a point. -/
theorem halting_naturalBelow (bound : Nat) : Halting (naturalBelow bound) := by
  have refuses {l : Lexeme} (hd : ∀ rest, l.Stands rest → digits.Refuses (l.text ++ rest)) :
      Verdict (naturalBelow bound) l := by
    refine Verdict.marked (.refuses fun rest hr => ?_) _
    obtain ⟨f, t, e, hf⟩ := hd rest hr
    exact ⟨f, t, by simp only [e], hf⟩
  intro l
  cases l with
  | number negative whole places =>
      cases negative with
      | true => exact .inl (refuses fun _ _ => refuses_digits (startsOutside_cons (by decide)))
      | false =>
          by_cases hb : Decimal.valueOf whole < bound
          · cases places with
            | nil =>
                exact .inl (.reads _ rfl rfl fun _ hr => naturalBelow_number hr hb)
            | cons d ds =>
                exact .inr ⟨_, fun rest hr => ⟨_, naturalBelow_number hr hb, _, .inl rfl⟩⟩
          · refine .inl (Verdict.marked (.refuses fun rest hr => ?_) _)
            have read := digits_whole hr
            refine ⟨⟨false, [], some "number too large to fit in target type"⟩,
              (Lexeme.number false whole places).text ++ rest, ?_, rfl⟩
            simp only [Lexeme.text_number, Bool.false_eq_true, if_false, List.nil_append, read,
              if_neg hb]
  | word _ => exact .inl (refuses fun _ => refuses_digits_lexeme nofun)
  | string _ => exact .inl (refuses fun _ => refuses_digits_lexeme nofun)
  | reference _ => exact .inl (refuses fun _ => refuses_digits_lexeme nofun)
  | symbol _ => exact .inl (refuses fun _ => refuses_digits_lexeme nofun)
  | char _ => exact .inl (refuses fun _ => refuses_digits_lexeme nofun)

/-- The equals sign of a parameter. -/
theorem halting_equals : Halting (char '=') := by
  have refuses {l : Lexeme} (hl : ∀ rest, l.Stands rest → ∀ t, l.text ++ rest ≠ '=' :: t) :
      Verdict (char '=') l := .refuses fun rest hr => refuses_char (hl rest hr)
  intro l
  cases l with
  | char d =>
      by_cases hd : d = '='
      · subst hd
        exact .inl (.reads () rfl rfl fun rest _ => char_ok '=' rest)
      · exact .inl (refuses fun _ hr => hr.ne (by simp [Lexeme.starts, Ne.symm hd]))
  | symbol s =>
      by_cases hs : s = ['=', '=']
      · subst hs
        exact .inr ⟨(), fun rest _ => ⟨'=' :: rest, rfl, rest, .inr rfl⟩⟩
      · refine .inl (refuses fun rest hr t e => ?_)
        have only : ∀ s ∈ Lint.symbols, s.head? = some '=' → s = ['=', '='] := by decide
        obtain ⟨c, u, hu, -⟩ := hr.exists_cons
        rw [hu] at e
        cases e
        exact hs (only s hr.1 (congrArg List.head? hu))
  | word _ => exact .inl (refuses fun _ hr => hr.ne rfl)
  | number _ _ _ => exact .inl (refuses fun _ hr => hr.ne rfl)
  | string _ => exact .inl (refuses fun _ hr => hr.ne rfl)
  | reference _ => exact .inl (refuses fun _ hr => hr.ne rfl)

/-- Midway in a lexeme no other punctuation can be committed to. -/
theorem midway_punctuation {cs : List Char} (h : Midway cs) {c : Char}
    (hc : ['.', '='].contains c = false) (rest : List Char) :
    (punctuation c cs).Yields none rest := by
  obtain ⟨d, t, rfl, hd⟩ := h.exists_cons
  have skip : skipTrivia (d :: t) = d :: t :=
    skipTrivia_solid t (isSolid_of_class (by decide) hd)
  refine marked_yields ((refuses_spaced fun u e => ?_).fails.commit rest) _
  rw [skip] at e
  cases e
  rw [hd] at hc
  cases hc

/-- Midway in a lexeme no literal can be committed to. -/
theorem midway_literalValue {cs : List Char} (h : Midway cs) (rest : List Char) :
    (argument literalValue cs).Yields none rest := by
  have word (c : Char) (t : List Char) :
      headWord (c :: t) = [] ∨ (headWord (c :: t)).head? = some c := by
    rw [headWord, List.takeWhile_cons]
    split
    · exact .inr rfl
    · exact .inl rfl
  have refuses (c : Char) (t : List Char) (hc : ['.', '='].contains c = true) :
      literalValue.Refuses (c :: t) := by
    have other (w : List Char) (hw : w.head?.all (fun d => !(['.', '='].contains d)) = true)
        (hne : w ≠ []) : headWord (c :: t) ≠ w := by
      rintro rfl
      obtain e | e := word c t
      · exact hne e
      · rw [e, Option.all_some, hc] at hw
        cases hw
    exact refuses_literalValue (fun e => by subst e; cases hc)
      (Lexeme.outside_of_contains (by decide) hc) (other _ (by decide) (by decide))
      (other _ (by decide) (by decide)) (other _ (by decide) (by decide))
  obtain ⟨d, t, rfl, hd⟩ := h.exists_cons
  rw [argument, trivia_bind,
    skipTrivia_solid t (isSolid_of_class (by decide) hd)]
  exact (refuses d t hd).fails.commit rest

end Rulebook.Dsl
