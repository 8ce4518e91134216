import Rulebook.Dsl.Printer
import Rulebook.Proofs.Decimal.Digits
import Rulebook.Proofs.Dsl.Trivia
import Rulebook.Proofs.Text.Run

/-!
# Rulebook — Proofs — Dsl — Lexeme

The words of a written rule read back: names, keywords, references, literals and comparisons.
What follows a word must not be able to go on it, which for all of them is so when no character
of a name follows (`Ends`).

A word at the start of a text is the longest run of characters of names there (`headWord`); a
keyword or a fixed word is read only where it is the whole of that run.
-/

namespace Rulebook.Dsl

open Grammar
open Text (StartsOutside startsOutside_cons takeWhile_run dropWhile_run)

/-- No name goes on here. -/
abbrev Ends (cs : List Char) : Prop := StartsOutside Text.isNamePart cs

theorem isNamePart_of_isDigit {c : Char} (h : c.isDigit = true) : Text.isNamePart c = true := by
  simp [Text.isNamePart, Char.isAlphanum, h]

/-- No blank is a letter or a digit. -/
theorem isBlank_of_isAlphanum {c : Char} (h : c.isAlphanum = true) : Text.isBlank c = false := by
  have range : (c.toNat ≤ 122 ∧ 48 ≤ c.toNat) := by
    delta Char.isAlphanum Char.isAlpha Char.isUpper Char.isLower Char.isDigit at h
    simp only [Bool.or_eq_true, Bool.and_eq_true, decide_eq_true_eq, ge_iff_le,
      UInt32.le_iff_toNat_le] at h
    have : c.toNat = c.val.toNat := rfl
    simp at h
    omega
  simp [Text.isBlank, Text.blankRanges]
  omega

/-- A part of a name is no blank. -/
theorem isBlank_of_isNamePart {c : Char} (h : Text.isNamePart c = true) :
    Text.isBlank c = false := by
  simp only [Text.isNamePart, Bool.or_eq_true, decide_eq_true_eq] at h
  obtain (h | rfl) | rfl := h
  · exact isBlank_of_isAlphanum h
  · decide
  · decide

/-! ### Names -/

theorem isName_cons {c : Char} {cs : List Char} (h : Text.isName (c :: cs) = true) :
    Text.isNameStart c = true ∧ ∀ d ∈ cs, Text.isNamePart d = true := by
  simpa [Text.isName] using h

/-- Every character of a name can go on a name. -/
theorem isNamePart_of_isName {cs : List Char} (h : Text.isName cs = true) :
    ∀ c ∈ cs, Text.isNamePart c = true := by
  cases cs with
  | nil => simp
  | cons c cs =>
      obtain ⟨hc, hcs⟩ := isName_cons h
      intro d hd
      rcases List.mem_cons.mp hd with rfl | hd
      · exact Text.isNamePart_of_isNameStart hc
      · exact hcs d hd

theorem exists_cons_of_isName {cs : List Char} (h : Text.isName cs = true) :
    ∃ c t, cs = c :: t ∧ Text.isNameStart c = true := by
  cases cs with
  | nil => simp [Text.isName] at h
  | cons c cs => exact ⟨c, cs, rfl, (isName_cons h).1⟩

/-- A name is read up to where it ends. -/
theorem name_ok {cs rest : List Char} (h : Text.isName cs = true) (hr : Ends rest) :
    name (cs ++ rest) = .ok cs rest := by
  obtain ⟨c, cs, rfl, hc⟩ := exists_cons_of_isName h
  have hcs := (isName_cons h).2
  rw [List.cons_append, name, if_pos hc, takeWhile_run hcs hr, dropWhile_run hcs hr]

theorem nameString_ok {s : String} {rest : List Char} (h : isName s = true) (hr : Ends rest) :
    nameString (s.toList ++ rest) = .ok s rest := by
  rw [nameString, bind_ok (name_ok h hr), pure_apply, String.ofList_toList]

/-- Names refuse what starts with no character of one. -/
theorem refuses_name {cs : List Char} (h : StartsOutside Text.isNameStart cs) :
    name.Refuses cs := by
  cases cs with
  | nil => exact ⟨.bare, [], rfl, rfl⟩
  | cons c cs => exact ⟨.bare, c :: cs, by simp [name, h c rfl], rfl⟩

/-- A name starts with neither a blank, nor a comment, nor a bracket, nor a digit. -/
theorem isSolid_of_isNameStart {c : Char} (h : Text.isNameStart c = true) :
    isSolid c = true := isSolid_of_class (by decide) h

theorem skipTrivia_name {s : String} (rest : List Char) (h : isName s = true) :
    skipTrivia (s.toList ++ rest) = s.toList ++ rest := by
  obtain ⟨c, t, e, hc⟩ := exists_cons_of_isName h
  rw [e]
  exact skipTrivia_solid _ (isSolid_of_isNameStart hc)

/-! ### Keywords and fixed words -/

/-- The word at the start of a text. -/
def headWord (cs : List Char) : List Char := cs.takeWhile Text.isNamePart

/-- The word at the start of a text is what stands in front of the end of a name. -/
theorem headWord_append {word rest : List Char} (h : ∀ c ∈ word, Text.isNamePart c = true)
    (hr : Ends rest) : headWord (word ++ rest) = word := takeWhile_run h hr

theorem headWord_of_ends {cs : List Char} (h : Ends cs) : headWord cs = [] :=
  Text.takeWhile_of_startsOutside h

/-- The word at the start of a text, when its end is known. -/
theorem headWord_eq_of_notBefore {word rest : List Char} (h : ∀ c ∈ word, Text.isNamePart c = true)
    (hr : notBefore Text.isNamePart rest = .ok () rest) : headWord (word ++ rest) = word := by
  refine headWord_append h fun c hc => ?_
  cases rest with
  | nil => cases hc
  | cons d ds =>
      cases hc
      cases e : Text.isNamePart c with
      | false => rfl
      | true => simp [notBefore, e] at hr

/-- A reader that stops at a character of a name, if it stops at all, refuses there. -/
theorem ok_or_refuses_notBefore (cs : List Char) :
    notBefore Text.isNamePart cs = .ok () cs ∨ (notBefore Text.isNamePart).Refuses cs := by
  cases cs with
  | nil => exact .inl rfl
  | cons c cs =>
      cases e : Text.isNamePart c with
      | false => exact .inl (by simp [notBefore, e])
      | true => exact .inr (refuses_notBefore e)

/-- A fixed word is refused unless it is the word at the start. -/
theorem refuses_word {w : String} {cs : List Char}
    (hw : ∀ c ∈ w.toList, Text.isNamePart c = true) (h : headWord cs ≠ w.toList) :
    (word w).Refuses cs := by
  by_cases hp : w.toList <+: cs
  -- the letters are there, but a longer word starts with them
  · obtain ⟨rest, rfl⟩ := hp
    refine Refuses.of_bind (exact_ok w.toList rest) ?_
    rcases ok_or_refuses_notBefore rest with e | e
    · exact absurd (headWord_eq_of_notBefore hw e) h
    · exact e
  · exact (refuses_exact hp).bind _

/-- A word is read up to where it ends. -/
theorem word_ok {w : String} {rest : List Char} (hr : Ends rest) :
    word w (w.toList ++ rest) = .ok () rest := by
  rw [word, bind_ok (exact_ok w.toList rest)]
  exact notBefore_ok hr

theorem toLower_of_not_upper {c : Char} (h : c.isUpper = false) : c.toLower = c := by
  exact dif_neg (of_decide_eq_false h)

theorem isAlpha_of_isUpper {c : Char} (h : c.isUpper = true) : c.isAlpha = true :=
  Bool.or_eq_true_iff.mpr (.inl h)

/-- A character goes on a name if its small letter does. -/
theorem isNamePart_of_toLower {c : Char} (h : Text.isNamePart c.toLower = true) :
    Text.isNamePart c = true := by
  cases e : c.isUpper with
  | true => simp [Text.isNamePart, Char.isAlphanum, isAlpha_of_isUpper e]
  | false => rwa [toLower_of_not_upper e] at h

theorem isNamePart_toLower_keyword (op : Connective) :
    ∀ c ∈ op.keyword.toList, Text.isNamePart c.toLower = true :=
  List.all_eq_true.mp (by cases op <;> decide)

theorem isNamePart_keyword (op : Connective) :
    ∀ c ∈ op.keyword.toList, Text.isNamePart c = true :=
  List.all_eq_true.mp (by cases op <;> decide)

/-- What reads as a keyword has characters of names only. -/
theorem isNamePart_of_sameLetters {op : Connective} {cs : List Char}
    (h : sameLetters op.keyword.toList cs = true) : ∀ c ∈ cs, Text.isNamePart c = true := by
  intro c hc
  have e : op.keyword.toList.map Char.toLower = cs.map Char.toLower := of_decide_eq_true h
  have hm : c.toLower ∈ op.keyword.toList.map Char.toLower := by
    rw [e]
    exact List.mem_map_of_mem hc
  obtain ⟨d, hd, hdc⟩ := List.mem_map.mp hm
  refine isNamePart_of_toLower ?_
  rw [← hdc]
  exact isNamePart_toLower_keyword op d hd

/-- A character starts a name if its small letter does. -/
theorem isNameStart_of_toLower {c : Char} (h : Text.isNameStart c.toLower = true) :
    Text.isNameStart c = true := by
  cases e : c.isUpper with
  | true => simp [Text.isNameStart, isAlpha_of_isUpper e]
  | false => rwa [toLower_of_not_upper e] at h

/-- What reads as a keyword is a name. -/
theorem isName_of_sameLetters {op : Connective} {cs : List Char}
    (h : sameLetters op.keyword.toList cs = true) : Text.isName cs = true := by
  have part := isNamePart_of_sameLetters h
  have e : op.keyword.toList.map Char.toLower = cs.map Char.toLower := of_decide_eq_true h
  have start : (op.keyword.toList.map Char.toLower).head?.all Text.isNameStart = true := by
    cases op <;> decide
  cases cs with
  | nil => cases op <;> exact absurd e (by decide)
  | cons c cs =>
      rw [e] at start
      rw [Text.isName, Bool.and_eq_true]
      exact ⟨isNameStart_of_toLower start,
        List.all_eq_true.mpr fun d hd => part d (List.mem_cons_of_mem c hd)⟩

/-- Words are the same but for their letters' case exactly if they are the same in lower case. -/
theorem sameLetters_iff {a b : List Char} :
    sameLetters a b = true ↔ a.map Char.toLower = b.map Char.toLower := decide_eq_true_iff

/-- What reads as the keyword of a connective reads as that of no other one. -/
theorem ofKeyword?_eq_some_iff {op : Connective} {cs : List Char} :
    Connective.ofKeyword? cs = some op ↔ sameLetters op.keyword.toList cs = true := by
  have found {k : Connective} (h : Connective.ofKeyword? cs = some k) :
      sameLetters k.keyword.toList cs = true := by
    rw [Connective.ofKeyword?] at h
    exact List.find?_some (p := fun k : Connective => sameLetters k.keyword.toList cs) h
  refine ⟨found, fun h => ?_⟩
  have hop : op ∈ Connective.all := by cases op <;> decide
  obtain ⟨other, ho⟩ : ∃ other, Connective.ofKeyword? cs = some other :=
    Option.isSome_iff_exists.mp (List.find?_isSome.mpr ⟨op, hop, h⟩)
  have same : op.keyword.toList.map Char.toLower = other.keyword.toList.map Char.toLower :=
    (sameLetters_iff.mp h).trans (sameLetters_iff.mp (found ho)).symm
  rw [ho]
  cases op <;> cases other <;> first | rfl | exact absurd same (by decide)

/-- Every keyword is read as its connective. -/
theorem ofKeyword?_keyword (op : Connective) :
    Connective.ofKeyword? op.keyword.toList = some op :=
  ofKeyword?_eq_some_iff.mpr (sameLetters_iff.mpr rfl)

/-- A keyword is a name, in whatever letters. -/
theorem isName_of_ofKeyword? {op : Connective} {cs : List Char}
    (h : Connective.ofKeyword? cs = some op) : Text.isName cs = true :=
  isName_of_sameLetters (ofKeyword?_eq_some_iff.mp h)

theorem skipTrivia_ofKeyword? {op : Connective} {word : List Char} (rest : List Char)
    (h : Connective.ofKeyword? word = some op) : skipTrivia (word ++ rest) = word ++ rest := by
  have name : isName (String.ofList word) = true := by
    rw [isName, String.toList_ofList]
    exact isName_of_ofKeyword? h
  have skip := skipTrivia_name rest name
  rwa [String.toList_ofList] at skip

/-- What reads as a keyword goes on no name. -/
theorem headWord_keyword {op : Connective} {word rest : List Char}
    (h : Connective.ofKeyword? word = some op) (hr : Ends rest) : headWord (word ++ rest) = word :=
  headWord_append (isNamePart_of_sameLetters (ofKeyword?_eq_some_iff.mp h)) hr

/-- A keyword is read up to where it ends, in whatever letters. -/
theorem keyword_ok {op : Connective} {word rest : List Char}
    (h : Connective.ofKeyword? word = some op) (hr : Ends rest) :
    keyword op (word ++ rest) = .ok () rest := by
  have same := ofKeyword?_eq_some_iff.mp h
  have hlen : op.keyword.toList.length = word.length := by
    simpa using congrArg List.length (sameLetters_iff.mp same)
  have hl : letters op.keyword.toList (word ++ rest) = .ok () rest := by
    rw [letters, hlen, List.take_left, List.drop_left, if_pos same]
  rw [keyword, bind_ok hl]
  exact notBefore_ok hr

/-- A keyword is refused unless it is the word at the start, letter case apart. -/
theorem refuses_keyword {op : Connective} {cs : List Char}
    (h : Connective.ofKeyword? (headWord cs) ≠ some op) : (keyword op).Refuses cs := by
  cases hs : sameLetters op.keyword.toList (cs.take op.keyword.toList.length) with
  | false => exact Refuses.bind ⟨.bare, cs, by simp [letters, hs], rfl⟩ _
  | true =>
      have hl : letters op.keyword.toList cs = .ok () (cs.drop op.keyword.toList.length) := by
        simp [letters, hs]
      refine Refuses.of_bind hl ?_
      rcases ok_or_refuses_notBefore (cs.drop op.keyword.toList.length) with e | e
      · have hw := headWord_eq_of_notBefore (isNamePart_of_sameLetters hs) e
        rw [List.take_append_drop] at hw
        exact absurd (ofKeyword?_eq_some_iff.mpr (hw ▸ hs)) h
      · exact e

/-- No keyword is read where the word at the start is none. -/
theorem refuses_keyword_of_none {cs : List Char}
    (h : Connective.ofKeyword? (headWord cs) = none) (op : Connective) :
    (keyword op).Refuses cs :=
  refuses_keyword (by rw [h]; exact nofun)

/-- What starts with no keyword is refused as a connective. -/
theorem refuses_connective {cs : List Char} (h : Connective.ofKeyword? (headWord cs) = none) :
    connective.Refuses cs := by
  have none (op : Connective) : (do keyword op; return op : Grammar Connective).Refuses cs :=
    (refuses_keyword_of_none h op).bind _
  exact (none .and).orElse ((none .or).orElse ((none .not).orElse
    ((none .xor).orElse (none .implies))))

/-- A connective is read from its keyword, in whatever letters. -/
theorem connective_ok {op : Connective} {word rest : List Char}
    (h : Connective.ofKeyword? word = some op) (hr : Ends rest) :
    connective (word ++ rest) = .ok op rest := by
  have here : (do keyword op; return op : Grammar Connective) (word ++ rest) = .ok op rest := by
    rw [bind_ok (keyword_ok h hr), pure_apply]
  have other (o : Connective) (ho : o ≠ op) :
      (do keyword o; return o : Grammar Connective).Refuses (word ++ rest) := by
    refine Refuses.bind (refuses_keyword ?_) _
    rw [headWord_keyword h hr, h]
    exact fun e => ho (Option.some.inj e).symm
  -- the keywords in front of `op` refuse, and `op` itself is read
  rw [connective]
  cases op with
  | and => exact orElse_of_ok here
  | or => rw [orElse_of_refuses (other .and (by decide))]; exact orElse_of_ok here
  | not =>
      rw [orElse_of_refuses (other .and (by decide)), orElse_of_refuses (other .or (by decide))]
      exact orElse_of_ok here
  | xor =>
      rw [orElse_of_refuses (other .and (by decide)), orElse_of_refuses (other .or (by decide)),
        orElse_of_refuses (other .not (by decide))]
      exact orElse_of_ok here
  | implies =>
      rw [orElse_of_refuses (other .and (by decide)), orElse_of_refuses (other .or (by decide)),
        orElse_of_refuses (other .not (by decide)), orElse_of_refuses (other .xor (by decide))]
      exact here

/-! ### Fields -/

theorem refuses_fieldReference {cs : List Char} (h : ∀ r, cs ≠ '$' :: r) :
    fieldReference.Refuses cs := by
  refine Refuses.bind (refuses_exact ?_) _
  rintro ⟨t, rfl⟩
  exact h _ rfl

/-- A reference is read back. -/
theorem fieldReference_ok {field : String} (h : isName field = true) (rest : List Char) :
    fieldReference (referenceText field ++ rest) = .ok field rest := by
  have hb : Ends ('\x7d' :: rest) := startsOutside_cons (by decide)
  have e : referenceText field ++ rest =
      ['$', '\x7b'] ++ (field.toList ++ '\x7d' :: rest) := by simp [referenceText]
  rw [e, fieldReference, bind_ok (exact_ok _ _),
    bind_ok (expecting_ok (commit_ok (nameString_ok h hb)) _),
    bind_ok (expectingChar_ok (commit_ok (char_ok _ _)) _), pure_apply]

/-- A field is read back. -/
theorem fieldName_ok {field : String} (h : isName field = true) {rest : List Char}
    (hr : Ends rest) : fieldName (field.toList ++ rest) = .ok field rest := by
  obtain ⟨c, t, e, hc⟩ := exists_cons_of_isName h
  have hne : ∀ r, field.toList ++ rest ≠ '$' :: r := by
    intro r he
    rw [e] at he
    cases he
    exact absurd hc (by decide)
  refine expecting_ok ?_ _
  rw [orElse_of_refuses (refuses_fieldReference hne)]
  exact nameString_ok h hr

/-! ### Comparisons -/

/-- A comparison reads back before a blank. -/
theorem comparison_ok (c : Comparison) (rest : List Char) :
    comparison (c.symbol.toList ++ ' ' :: rest) = .ok c (' ' :: rest) := by
  cases c <;> rfl

/-! ### Whole numbers -/

/-- Digits are read up to where they end. -/
theorem digits_ok {ds rest : List Char} (hne : ds ≠ []) (hd : ∀ c ∈ ds, c.isDigit = true)
    (hr : StartsOutside Char.isDigit rest) : digits (ds ++ rest) = .ok ds rest := by
  rw [digits, takeWhile_run hd hr, dropWhile_run hd hr]
  cases ds with
  | nil => exact absurd rfl hne
  | cons d ds => rfl

theorem refuses_digits {cs : List Char} (h : StartsOutside Char.isDigit cs) :
    digits.Refuses cs := by
  refine ⟨.bare, cs, ?_, rfl⟩
  rw [digits, Text.takeWhile_of_startsOutside h]

/-- The digits of a number are read back. -/
theorem digits_digitsOf (n : Nat) {rest : List Char} (hr : StartsOutside Char.isDigit rest) :
    digits (Decimal.digitsOf n ++ rest) = .ok (Decimal.digitsOf n) rest :=
  digits_ok (Decimal.digitsOf_ne_nil n) (fun _ => Decimal.isDigit_of_mem_digitsOf) hr

/-- A natural number below the bound is read back. -/
theorem naturalBelow_ok {n bound : Nat} (h : n < bound) {rest : List Char} (hr : Ends rest) :
    naturalBelow bound (Decimal.digitsOf n ++ rest) = .ok n rest := by
  refine expecting_ok ?_ _
  simp [digits_digitsOf n (hr.mono fun _ => isNamePart_of_isDigit), Decimal.valueOf_digitsOf, h]

end Rulebook.Dsl
