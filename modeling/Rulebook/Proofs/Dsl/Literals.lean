import Rulebook.Proofs.Decimal.Texts
import Rulebook.Proofs.Dsl.Lexeme

/-!
# Rulebook — Proofs — Dsl — Literals

Values written in a rule read back: string literals with their escapes (`stringLiteral_ok`),
integers and floating-point numbers (`number_integerText`, `number_ruleText`), values of any kind
(`literalValue_ok`), and what stands on the right of a comparison (`operand_literal`,
`operand_reference`).  The values that read back are those that can be written, which numbers that
are not finite cannot (`literalValue_text_iff`).
-/

namespace Rulebook.Dsl

open Grammar
open Text (StartsOutside startsOutside_cons)

/-! ### Strings -/

/-- One character of a string literal reads back. -/
theorem stringRest_quoteChar (c : Char) {cs s rest : List Char}
    (h : stringRest cs = .ok s rest) :
    stringRest (Text.quoteChar c ++ cs) = .ok (c :: s) rest := by
  unfold Text.quoteChar
  split
  · rename_i hc; simp [stringRest, h, Text.unescape, hc]
  · split
    · rename_i hc; simp [stringRest, h, Text.unescape, hc]
    · split
      · rename_i hc; simp [stringRest, h, Text.unescape, hc]
      · split
        · rename_i hc; simp [stringRest, h, Text.unescape, hc]
        · rename_i hq hb _ _
          rw [List.singleton_append, stringRest.eq_def]
          split
          · rename_i e; cases e
          · rename_i e; cases e; exact absurd rfl hq
          · rename_i e; cases e; exact absurd rfl hb
          · rename_i e; cases e; exact absurd rfl hb
          · rename_i e; cases e; rw [h]

theorem stringRest_flatMap (s rest : List Char) :
    stringRest (s.flatMap Text.quoteChar ++ '"' :: rest) = .ok s rest := by
  induction s with
  | nil => rfl
  | cons c s ih =>
      rw [List.flatMap_cons, List.append_assoc]
      exact stringRest_quoteChar c ih

/-- **A string literal reads back.** -/
theorem stringLiteral_ok (s : String) (rest : List Char) :
    stringLiteral (quotedText s ++ rest) = .ok s rest := by
  have e : quotedText s ++ rest = '"' :: (s.toList.flatMap Text.quoteChar ++ '"' :: rest) := by
    simp [quotedText, Text.quote]
  rw [e, stringLiteral, bind_ok (char_ok _ _), bind_ok (stringRest_flatMap _ _), pure_apply,
    String.ofList_toList]

theorem refuses_stringLiteral {cs : List Char} (h : ∀ r, cs ≠ '"' :: r) :
    stringLiteral.Refuses cs :=
  (refuses_char h).bind _

/-! ### Numbers -/

/-- The characters a number starts with. -/
def isNumberStart (c : Char) : Bool := c.isDigit || c = '-'

theorem isSolid_of_isDigit {c : Char} (h : c.isDigit = true) : isSolid c = true :=
  isSolid_of_class (by decide) h

theorem isSolid_of_isNumberStart {c : Char} (h : isNumberStart c = true) : isSolid c = true :=
  isSolid_of_class (by decide) h

theorem isNumberStart_of_isNameStart {c : Char} (h : Text.isNameStart c = true) :
    isNumberStart c = false := by
  cases e : isNumberStart c with
  | false => rfl
  | true =>
      simp only [isNumberStart, Bool.or_eq_true, decide_eq_true_eq] at e
      rcases e with e | rfl
      · have digit : c.val ≥ '0'.val ∧ c.val ≤ '9'.val := by simpa [Char.isDigit] using e
        simp only [Text.isNameStart, Bool.or_eq_true, decide_eq_true_eq] at h
        rcases h with h | rfl
        -- letters of either case come behind the digits
        · rcases Bool.or_eq_true_iff.mp h with upper | lower
          · exact absurd (UInt32.le_trans (of_decide_eq_true upper).1 digit.2) (by decide)
          · have lower : 'a'.val ≤ c.val := of_decide_eq_true (Bool.and_eq_true_iff.mp lower).1
            exact absurd (UInt32.le_trans lower digit.2) (by decide)
        · exact absurd digit.2 (by decide)
      · exact absurd h (by decide)

theorem isDigit_of_isNameStart {c : Char} (h : Text.isNameStart c = true) : c.isDigit = false :=
  (Bool.or_eq_false_iff.mp (isNumberStart_of_isNameStart h)).1

/-- The optional sign in front of a number. -/
theorem optional_minus (negative : Bool) {cs : List Char} (h : ∀ r, cs ≠ '-' :: r) :
    ∃ sign, optional (char '-') ((if negative then ['-'] else []) ++ cs) = .ok sign cs ∧
      sign.isSome = negative := by
  cases negative with
  | true => exact ⟨some (), optional_of_ok (char_ok _ _), rfl⟩
  | false => exact ⟨none, optional_of_refuses (refuses_char h), rfl⟩

theorem ne_minus_of_digits {ds : List Char} (hne : ds ≠ [])
    (hd : ∀ c ∈ ds, c.isDigit = true) (rest : List Char) : ∀ r, ds ++ rest ≠ '-' :: r := by
  intro r e
  cases ds with
  | nil => exact hne rfl
  | cons d ds =>
      cases e
      exact absurd (hd _ List.mem_cons_self) (by decide)

theorem refuses_point {rest : List Char} (hr : Ends rest) :
    (do char '.'; digits : Grammar (List Char)).Refuses rest := by
  refine Refuses.bind (refuses_char ?_) _
  rintro r rfl
  exact absurd (hr '.' rfl) (by decide)

/-- **An integer reads back.** -/
theorem integerText_eq (n : Int64) : Literal.integerText n =
    (if decide (n < 0) then ['-'] else []) ++ Decimal.digitsOf n.toInt.natAbs := by
  simp [Literal.integerText]

theorem number_integerText (n : Int64) {rest : List Char} (hr : Ends rest) :
    number (Literal.integerText n ++ rest) = .ok (.int n) rest := by
  have hd : StartsOutside Char.isDigit rest := hr.mono fun _ => isNamePart_of_isDigit
  have hm := ne_minus_of_digits (Decimal.digitsOf_ne_nil n.toInt.natAbs)
    (fun _ => Decimal.isDigit_of_mem_digitsOf) rest
  obtain ⟨sign, hs, hsign⟩ := optional_minus (decide (n < 0)) hm
  rw [integerText_eq, List.append_assoc, number, bind_ok hs, bind_ok (digits_digitsOf _ hd),
    bind_ok (optional_of_refuses (refuses_point hr))]
  have hv : (if sign.isSome then -((Decimal.valueOf (Decimal.digitsOf n.toInt.natAbs) : Nat) : Int)
      else Decimal.valueOf (Decimal.digitsOf n.toInt.natAbs)) = n.toInt := by
    rw [hsign, Decimal.valueOf_digitsOf]
    by_cases hn : n < 0
    · have := Int64.lt_iff_toInt_lt.mp hn
      simp only [hn, decide_true, if_true, Int64.toInt_zero] at this ⊢
      omega
    · have := mt Int64.lt_iff_toInt_lt.mpr hn
      simp only [hn, decide_false, Int64.toInt_zero] at this ⊢
      simp
      omega
  have hin : Literal.inRange n.toInt = true := by
    have h₁ := Int64.le_toInt n
    have h₂ := Int64.toInt_lt n
    simp only [Literal.inRange, Bool.and_eq_true, decide_eq_true_eq]
    omega
  simp only [hv, hin, if_true, Int64.ofInt_toInt, pure_apply]

/-- **A finite floating-point number reads back.** -/
theorem number_ruleText {x : Binary64} (h : x.isFinite = true) {rest : List Char} (hr : Ends rest) :
    number (x.ruleText ++ rest) = .ok (.float x) rest := by
  obtain ⟨whole, places, e, hw, hwd, hp, hpd, hx⟩ := Binary64.exists_ruleText h
  have hd : StartsOutside Char.isDigit rest := hr.mono fun _ => isNamePart_of_isDigit
  have hm := ne_minus_of_digits hw hwd ('.' :: (places ++ rest))
  obtain ⟨sign, hs, hsign⟩ := optional_minus x.negative hm
  have frac : (do char '.'; digits : Grammar (List Char)) ('.' :: (places ++ rest)) =
      .ok places rest := by rw [bind_ok (char_ok _ _), digits_ok hp hpd hd]
  have hw' : digits (whole ++ '.' :: (places ++ rest)) = .ok whole ('.' :: (places ++ rest)) :=
    digits_ok hw hwd (startsOutside_cons (by decide))
  have e' : x.ruleText ++ rest = (if x.negative then ['-'] else []) ++
      (whole ++ '.' :: (places ++ rest)) := by simp [e, Binary64.sign]
  rw [e', number, bind_ok hs, bind_ok hw', bind_ok (optional_of_ok frac)]
  simp only [hsign, hx, pure_apply]

/-! ### Values -/

/-- A fixed word is refused where the text starts with another character. -/
theorem refuses_word_of_ne {w : String} {c d : Char} {ds cs : List Char}
    (hw : w.toList = d :: ds) (h : c ≠ d) : (word w).Refuses (c :: cs) := by
  refine Refuses.bind (refuses_exact ?_) _
  rw [hw]
  rintro ⟨t, e⟩
  cases e
  exact h rfl

/-- What starts like a number is read as one. -/
theorem literalValue_of_isNumberStart {c : Char} {cs : List Char} (h : isNumberStart c = true)
    {v : Literal} {rest : List Char} (hn : number (c :: cs) = .ok v rest) :
    literalValue (c :: cs) = .ok v rest := by
  have ne (d : Char) (hd : isNumberStart d = false) : c ≠ d := by
    rintro rfl
    rw [h] at hd
    cases hd
  refine expecting_ok ?_ _
  rw [orElse_of_refuses (Refuses.bind (refuses_stringLiteral fun r e => by
      cases e
      exact ne '"' (by decide) rfl) _),
    orElse_of_refuses (Refuses.bind (refuses_word_of_ne rfl (ne 't' (by decide))) _),
    orElse_of_refuses (Refuses.bind (refuses_word_of_ne rfl (ne 'f' (by decide))) _),
    orElse_of_refuses (Refuses.bind (refuses_word_of_ne rfl (ne 'n' (by decide))) _), hn]

theorem exists_numberStart_of_sign (negative : Bool) {ds : List Char} (hne : ds ≠ [])
    (hd : ∀ c ∈ ds, c.isDigit = true) (rest : List Char) :
    ∃ c t, (if negative then ['-'] else []) ++ (ds ++ rest) = c :: t ∧ isNumberStart c = true := by
  cases negative with
  | true => exact ⟨'-', ds ++ rest, rfl, by decide⟩
  | false =>
      cases ds with
      | nil => exact absurd rfl hne
      | cons d ds => exact ⟨d, ds ++ rest, rfl, by simp [isNumberStart, hd d List.mem_cons_self]⟩

theorem exists_numberStart_integerText (n : Int64) (rest : List Char) :
    ∃ c t, Literal.integerText n ++ rest = c :: t ∧ isNumberStart c = true := by
  obtain ⟨c, t, e, hc⟩ := exists_numberStart_of_sign (decide (n < 0))
    (Decimal.digitsOf_ne_nil n.toInt.natAbs) (fun _ => Decimal.isDigit_of_mem_digitsOf) rest
  exact ⟨c, t, by rw [integerText_eq, List.append_assoc, e], hc⟩

theorem exists_numberStart_ruleText {x : Binary64} (h : x.isFinite = true) (rest : List Char) :
    ∃ c t, x.ruleText ++ rest = c :: t ∧ isNumberStart c = true := by
  obtain ⟨whole, places, e, hw, hwd, -⟩ := Binary64.exists_ruleText h
  obtain ⟨c, t, e', hc⟩ := exists_numberStart_of_sign x.negative hw hwd ('.' :: (places ++ rest))
  exact ⟨c, t, by rw [← e', e]; simp [Binary64.sign], hc⟩

theorem isFinite_of_check {x : Binary64} (h : (Literal.float x).check = .ok ()) :
    x.isFinite = true := by
  simp only [Literal.check] at h
  split at h
  · assumption
  · cases h

/-- **A value that can be written reads back.** -/
theorem literalValue_ok {v : Literal} (h : v.check = .ok ()) {rest : List Char} (hr : Ends rest) :
    literalValue (v.render ++ rest) = .ok v rest := by
  -- the alternatives in front of the one that reads the value are refused by its first character
  have hs {d : Char} {cs : List Char} (hd : d ≠ '"') :
      (do let s ← stringLiteral; return .string s : Grammar Literal).Refuses (d :: cs) :=
    (refuses_stringLiteral fun r e => hd (List.cons.inj e).1).bind _
  cases v with
  | null =>
      have here : word "null" ("null".toList ++ rest) = .ok () rest := word_ok hr
      refine expecting_ok ?_ _
      show ((do let s ← stringLiteral; return .string s : Grammar Literal) <|> _) ('n' :: _) = _
      rw [orElse_of_refuses (hs (by decide)),
        orElse_of_refuses (Refuses.bind (refuses_word_of_ne rfl (by decide)) _),
        orElse_of_refuses (Refuses.bind (refuses_word_of_ne rfl (by decide)) _)]
      exact orElse_of_ok (map_ok here _)
  | bool b =>
      refine expecting_ok ?_ _
      cases b with
      | true =>
          have here : word "true" ("true".toList ++ rest) = .ok () rest := word_ok hr
          show ((do let s ← stringLiteral; return .string s : Grammar Literal) <|> _)
            ('t' :: _) = _
          rw [orElse_of_refuses (hs (by decide))]
          exact orElse_of_ok (map_ok here _)
      | false =>
          have here : word "false" ("false".toList ++ rest) = .ok () rest := word_ok hr
          show ((do let s ← stringLiteral; return .string s : Grammar Literal) <|> _)
            ('f' :: _) = _
          rw [orElse_of_refuses (hs (by decide)),
            orElse_of_refuses (Refuses.bind (refuses_word_of_ne rfl (by decide)) _)]
          exact orElse_of_ok (map_ok here _)
  | int n =>
      obtain ⟨c, t, e, hc⟩ := exists_numberStart_integerText n rest
      have hn := number_integerText n hr
      rw [Literal.render, e]
      exact literalValue_of_isNumberStart hc (e ▸ hn)
  | float x =>
      have hx := isFinite_of_check h
      obtain ⟨c, t, e, hc⟩ := exists_numberStart_ruleText hx rest
      have hn := number_ruleText hx hr
      rw [Literal.render, e]
      exact literalValue_of_isNumberStart hc (e ▸ hn)
  | string s =>
      have here := stringLiteral_ok s rest
      exact expecting_ok (orElse_of_ok (map_ok here _)) _

/-- The text of a value starts with none of the characters that end or go around one. -/
theorem exists_render {v : Literal} (h : v.check = .ok ()) (rest : List Char) :
    ∃ c t, v.render ++ rest = c :: t ∧ isSolid c = true ∧ c ≠ '$' := by
  have number {cs : List Char} (hc : ∃ c t, cs = c :: t ∧ isNumberStart c = true) :
      ∃ c t, cs = c :: t ∧ isSolid c = true ∧ c ≠ '$' := by
    obtain ⟨c, t, e, hc⟩ := hc
    refine ⟨c, t, e, isSolid_of_isNumberStart hc, ?_⟩
    rintro rfl
    exact absurd hc (by decide)
  cases v with
  | null => exact ⟨'n', _, rfl, by decide, by decide⟩
  | bool b =>
      cases b with
      | true => exact ⟨'t', _, rfl, by decide, by decide⟩
      | false => exact ⟨'f', _, rfl, by decide, by decide⟩
  | int n => exact number (exists_numberStart_integerText n rest)
  | float x => exact number (exists_numberStart_ruleText (isFinite_of_check h) rest)
  | string s => exact ⟨'"', _, rfl, by decide, by decide⟩

/-! ### Values that can be written -/

theorem refuses_literalValue_of_parts {cs : List Char} (string : stringLiteral.Refuses cs)
    (words : ∀ w ∈ ["true", "false", "null"], (word w).Refuses cs) (number : number.Refuses cs) :
    literalValue.Refuses cs :=
  Refuses.marked ((string.bind _).orElse (((words "true" (by decide)).bind _).orElse
    (((words "false" (by decide)).bind _).orElse
      (((words "null" (by decide)).bind _).orElse number)))) _

/-- A number that is not finite has a name in place of digits. -/
theorem exists_ruleText_name {x : Binary64} (h : x.isFinite = false) :
    ∃ (negative : Bool) (c : Char) (t : List Char), (c = 'N' ∨ c = 'i') ∧
      x.ruleText = (if negative then ['-'] else []) ++ c :: t := by
  rw [Binary64.ruleText]
  split
  · exact ⟨false, 'N', "aN".toList, .inl rfl, rfl⟩
  · rw [h, Bool.not_false, if_pos rfl, Binary64.sign]
    exact ⟨x.negative, 'i', "nf".toList, .inr rfl, rfl⟩

/-- **What a number that is not finite is written as is no literal.** -/
theorem refuses_literalValue_ruleText {x : Binary64} (h : x.isFinite = false) (rest : List Char) :
    literalValue.Refuses (x.ruleText ++ rest) := by
  obtain ⟨negative, c, t, hc, e⟩ := exists_ruleText_name h
  rw [e, List.append_assoc, List.cons_append]
  obtain ⟨unsigned, noDigit, other⟩ :
      c ≠ '-' ∧ c.isDigit = false ∧ c ∉ ['"', 't', 'f', 'n'] := by
    obtain rfl | rfl := hc
    · decide
    · decide
  have number : number.Refuses ((if negative then ['-'] else []) ++ c :: (t ++ rest)) := by
    obtain ⟨sign, hs, -⟩ := @optional_minus negative (c :: (t ++ rest))
      fun r e => unsigned (List.cons.inj e).1
    exact Refuses.of_bind hs ((refuses_digits (startsOutside_cons noDigit)).bind _)
  obtain ⟨d, u, start, hd⟩ : ∃ d u, (if negative then ['-'] else []) ++ c :: (t ++ rest) = d :: u ∧
      d ∉ ['"', 't', 'f', 'n'] := by
    cases negative with
    | true => exact ⟨'-', _, rfl, by decide⟩
    | false => exact ⟨c, _, rfl, other⟩
  rw [start] at number ⊢
  simp only [List.mem_cons, List.not_mem_nil, or_false, not_or] at hd
  obtain ⟨hq, ht, hf, hn⟩ := hd
  refine refuses_literalValue_of_parts (refuses_stringLiteral fun r e => hq (List.cons.inj e).1)
    (fun w hw => ?_) number
  simp only [List.mem_cons, List.not_mem_nil, or_false] at hw
  obtain rfl | rfl | rfl := hw
  · exact refuses_word_of_ne rfl ht
  · exact refuses_word_of_ne rfl hf
  · exact refuses_word_of_ne rfl hn

theorem check_of_isRenderable {v : Literal} (h : v.isRenderable = true) : v.check = .ok () := by
  cases v with
  | float x => exact if_pos h
  | _ => rfl

/-- **The text of a value reads back** as exactly that value, and what follows the text is left, if
that does not go on with a character of a name.  Only numbers that are not finite do not read
back. -/
theorem literalValue_text_iff (v : Literal) {rest : List Char}
    (hr : StartsOutside Text.isNamePart rest) :
    literalValue (v.text.toList ++ rest) = .ok v rest ↔ v.isRenderable = true := by
  rw [Literal.text, String.toList_ofList]
  refine ⟨fun h => ?_, fun h => literalValue_ok (check_of_isRenderable h) hr⟩
  cases v with
  | float x =>
      by_contra infinite
      obtain ⟨f, left, refused, -⟩ :=
        refuses_literalValue_ruleText (Bool.eq_false_iff.mpr infinite) rest
      rw [Literal.render, refused] at h
      cases h
  | _ => rfl

/-- Escaped characters, a control character and a letter beyond ASCII, in front of such a letter. -/
theorem literalValue_text_iff_escaped :
    let v := Literal.string "\"\\n\n\t# $\r\x01é"
    StartsOutside Text.isNamePart "é\"".toList ∧ v.isRenderable = true ∧
      v.text = "\"\\\"\\\\n\\n\\t# $\r\x01é\"" ∧
      literalValue (v.text.toList ++ "é\"".toList) = .ok v "é\"".toList := by
  intro v
  have ends : StartsOutside Text.isNamePart "é\"".toList := startsOutside_cons (by decide)
  exact ⟨ends, rfl, by decide +kernel, (literalValue_text_iff v ends).mpr rfl⟩

/-! ### Operands -/

theorem exists_field_of_checkReference {v : Literal} (h : v.checkReference = .ok ()) :
    ∃ s, v = .string s ∧ isName s = true := by
  cases v with
  | string s =>
      simp only [Literal.checkReference] at h
      split at h
      · exact ⟨s, rfl, by assumption⟩
      · cases h
  | _ => cases h

theorem operand_literal {v : Literal} (h : v.check = .ok ()) {rest : List Char} (hr : Ends rest) :
    operand (v.render ++ rest) = .ok (v, .literal) rest := by
  obtain ⟨c, t, e, -, hc⟩ := exists_render h rest
  have hne : ∀ r, v.render ++ rest ≠ '$' :: r := by
    intro r he
    rw [e] at he
    cases he
    exact hc rfl
  refine expecting_ok ?_ _
  rw [orElse_of_refuses ((refuses_fieldReference hne).bind _)]
  exact map_ok (literalValue_ok h hr) _

theorem operand_reference {field : String} (h : isName field = true) (rest : List Char) :
    operand (referenceText field ++ rest) = .ok (.string field, .fieldReference) rest :=
  expecting_ok (orElse_of_ok (map_ok (fieldReference_ok h rest) _)) _

end Rulebook.Dsl
