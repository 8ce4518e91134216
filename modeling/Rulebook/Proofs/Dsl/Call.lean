import Rulebook.Proofs.Dsl.Check
import Rulebook.Proofs.Dsl.Literals
import Rulebook.Proofs.Json.Layout
import Rulebook.Proofs.KeyMap

/-!
# Rulebook — Proofs — Dsl — Call

The arguments of written calls read back, for every form of a call.

Where a rule stands among the arguments, what its reader leaves need only be blanks and comments
away from the bracket that follows.
-/

namespace Rulebook.Dsl

open Grammar
open Text (StartsOutside startsOutside_cons)

/-! ### Argument by argument -/

section Arguments

variable {rest : List Char}

/-- A space in front of an argument is skipped. -/
theorem argument_space {α : Type} (p : Grammar α) (cs : List Char) :
    argument p (' ' :: cs) = argument p cs := by
  rw [argument, trivia_bind, trivia_bind, skipTrivia_space]

theorem punctuation_here {c : Char} (h : isSolid c = true) (cs : List Char) :
    punctuation c (c :: cs) = .ok () cs :=
  punctuation_ok (skipTrivia_solid cs h)

/-- A name as an argument is read back. -/
theorem nameArgument_ok {field : String} (h : isName field = true) (hr : Ends rest) :
    argument fieldName (field.toList ++ rest) = .ok field rest := by
  refine argument_ok ?_
  rw [skipTrivia_name rest h]
  exact fieldName_ok h hr

/-- A string as an argument is read back. -/
theorem stringArgument_ok (what s : String) (rest : List Char) :
    stringArgument what (quotedText s ++ rest) = .ok s rest := by
  refine argument_ok ?_
  rw [show quotedText s ++ rest = '"' :: _ from rfl, skipTrivia_solid _ (by decide)]
  exact expecting_ok (stringLiteral_ok s rest) _

/-- A literal as an argument is read back. -/
theorem literalArgument_ok {v : Literal} (h : v.check = .ok ()) (hr : Ends rest) :
    argument literalValue (v.render ++ rest) = .ok v rest := by
  obtain ⟨c, t, e, hc, -⟩ := exists_render h rest
  refine argument_ok ?_
  rw [e, skipTrivia_solid t hc, ← e]
  exact literalValue_ok h hr

/-- A number below the bound is read back as an argument. -/
theorem numberArgument_ok {n bound : Nat} (h : n < bound) (hr : Ends rest) :
    argument (naturalBelow bound) (Decimal.digitsOf n ++ rest) = .ok n rest := by
  obtain ⟨d, ds, e, hd, -⟩ := Decimal.exists_digitsOf_eq_cons n
  refine argument_ok ?_
  rw [e, List.cons_append, skipTrivia_solid _ (isSolid_of_isDigit hd), ← List.cons_append, ← e]
  exact naturalBelow_ok h hr

/-- A payload is read back from the string that it is quoted in. -/
theorem payload_ok {p : Payload} (h : p.value.nesting ≤ Json.depthLimit) (rest : List Char) :
    payload (Text.quote p.value.write ++ rest) = .ok p rest := by
  have e : Text.quote p.value.write = quotedText (String.ofList p.value.write) := by
    rw [quotedText, String.toList_ofList]
  refine expecting_ok ?_ _
  simp only [e, stringLiteral_ok, Payload.parse?_write h, Payload.ofJson_value]

theorem payloadArgument_ok {p : Payload} (h : p.value.nesting ≤ Json.depthLimit)
    (rest : List Char) : argument payload (Text.quote p.value.write ++ rest) = .ok p rest := by
  refine argument_ok ?_
  rw [show Text.quote p.value.write ++ rest = '"' :: _ from rfl, skipTrivia_solid _ (by decide)]
  exact payload_ok h rest

end Arguments

/-! ### Arguments of plain functions -/

/-- What is neither quoted nor a number nor a word for a literal is no literal. -/
theorem refuses_literalValue {c : Char} {cs : List Char} (hq : c ≠ '"')
    (hn : isNumberStart c = false) (ht : headWord (c :: cs) ≠ "true".toList)
    (hf : headWord (c :: cs) ≠ "false".toList) (hl : headWord (c :: cs) ≠ "null".toList) :
    literalValue.Refuses (c :: cs) := by
  have hs : stringLiteral.Refuses (c :: cs) :=
    refuses_stringLiteral fun r e => hq (List.cons.inj e).1
  have number : number.Refuses (c :: cs) := by
    have hm : ∀ r, c :: cs ≠ '-' :: r := by
      intro r e
      cases e
      exact absurd hn (by decide)
    have hd : StartsOutside Char.isDigit (c :: cs) := startsOutside_cons (by
      cases e : c.isDigit with
      | false => rfl
      | true => simp [isNumberStart, e] at hn)
    exact Refuses.of_bind (optional_of_refuses (refuses_char hm))
      ((refuses_digits hd).bind _)
  have refuses : ∀ {w : String}, w.toList.all Text.isNamePart = true →
      headWord (c :: cs) ≠ w.toList → (word w).Refuses (c :: cs) := fun hw h =>
    refuses_word (List.all_eq_true.mp hw) h
  refine refuses_literalValue_of_parts hs ?_ number
  simpa using ⟨refuses (by decide) ht, refuses (by decide) hf, refuses (by decide) hl⟩

/-- A reference is no literal. -/
theorem functionArgument_reference {field : String} (h : isName field = true)
    (rest : List Char) : functionArgument (referenceText field ++ rest) =
      .ok ⟨.string field, .fieldReference⟩ rest := by
  have head (cs : List Char) : headWord ('$' :: cs) = [] :=
    headWord_of_ends (startsOutside_cons (by decide))
  have refuses (cs : List Char) : literalValue.Refuses ('$' :: cs) :=
    refuses_literalValue (by decide) (by decide) (by rw [head]; decide)
      (by rw [head]; decide) (by rw [head]; decide)
  have e : referenceText field ++ rest =
      '$' :: '\x7b' :: (field.toList ++ '\x7d' :: rest) := by simp [referenceText]
  refine expecting_ok ?_ _
  rw [orElse_of_refuses (Refuses.bind (e ▸ refuses _) _)]
  exact map_ok (expecting_ok (orElse_of_ok (fieldReference_ok h rest)) _) _

/-- A bare name is no literal, unless it is one of the three words that are. -/
theorem functionArgument_name {field : String} (h : isName field = true)
    (ht : field ≠ "true") (hf : field ≠ "false") (hl : field ≠ "null") {rest : List Char}
    (hr : Ends rest) : functionArgument (field.toList ++ rest) =
      .ok ⟨.string field, .fieldReference⟩ rest := by
  obtain ⟨c, t, e, hc⟩ := exists_cons_of_isName h
  have ne (w : String) (hw : field ≠ w) : headWord (field.toList ++ rest) ≠ w.toList := by
    rw [headWord_append (isNamePart_of_isName h) hr]
    exact fun he => hw (String.toList_inj.mp he)
  have refuses : literalValue.Refuses (field.toList ++ rest) := by
    have ht := ne _ ht
    have hf := ne _ hf
    have hl := ne _ hl
    rw [e] at ht hf hl ⊢
    refine refuses_literalValue ?_ ?_ ht hf hl
    · rintro rfl
      exact absurd hc (by decide)
    · exact isNumberStart_of_isNameStart hc
  refine expecting_ok ?_ _
  rw [orElse_of_refuses (refuses.bind _)]
  exact map_ok (fieldName_ok h hr) _

/-- An argument of a plain function reads back. -/
theorem functionArgument_ok {a : Argument} (h : a.value.checkOperand a.kind = .ok ())
    {rest : List Char} (hr : Ends rest) : functionArgument (a.render ++ rest) = .ok a rest := by
  obtain ⟨v, kind⟩ := a
  cases kind with
  | literal => exact expecting_ok (orElse_of_ok (map_ok (literalValue_ok h hr) _)) _
  | fieldReference =>
      obtain ⟨field, rfl, hs⟩ := exists_field_of_checkReference h
      by_cases hw : (field = "true" || field = "false" || field = "null") = true
      · have e : (⟨.string field, .fieldReference⟩ : Argument).render = referenceText field :=
          if_pos hw
        rw [e]
        exact functionArgument_reference hs rest
      · have e : (⟨.string field, .fieldReference⟩ : Argument).render = field.toList :=
          if_neg hw
        simp only [Bool.or_eq_true, decide_eq_true_eq, not_or] at hw
        rw [e]
        exact functionArgument_name hs hw.1.1 hw.1.2 hw.2 hr

/-- An argument starts with neither a blank, nor a comment, nor a bracket. -/
theorem exists_argument {a : Argument} (h : a.value.checkOperand a.kind = .ok ())
    (rest : List Char) : ∃ c t, a.render ++ rest = c :: t ∧ isSolid c = true := by
  obtain ⟨v, kind⟩ := a
  cases kind with
  | literal =>
      obtain ⟨c, t, e, hc, -⟩ := exists_render h rest
      exact ⟨c, t, e, hc⟩
  | fieldReference =>
      obtain ⟨field, rfl, hs⟩ := exists_field_of_checkReference h
      obtain ⟨c, t, e, hc⟩ := exists_cons_of_isName hs
      rw [Argument.render]
      dsimp only [Literal.fieldName]
      split
      · exact ⟨'$', _, rfl, by decide⟩
      · exact ⟨c, t ++ rest, by rw [e]; rfl, isSolid_of_isNameStart hc⟩

/-! ### Lists of arguments -/

theorem commaSeparated_cons (t : List Char) (ts : List (List Char)) :
    commaSeparated (t :: ts) = t ++ ts.flatMap fun u => ',' :: ' ' :: u := by
  induction ts generalizing t with
  | nil => simp [commaSeparated]
  | cons u ts ih => rw [commaSeparated, ih]; rfl

section Lists

variable {α β : Type} {p : Grammar α} {text : β → List Char} {value : β → α} {rest : List Char}

/-- Behind commas no name goes on. -/
theorem ends_commas (text : β → List Char) (items : List β) (rest : List Char) :
    Ends (items.flatMap (fun b => ',' :: ' ' :: text b) ++ ')' :: rest) := by
  cases items with
  | nil => exact startsOutside_cons (by decide)
  | cons b items => exact startsOutside_cons (by decide)

theorem length_le_commas (text : β → List Char) (items : List β) :
    items.length ≤ (items.flatMap fun b => ',' :: ' ' :: text b).length := by
  induction items with
  | nil => exact Nat.le_refl 0
  | cons b items ih =>
      simp only [List.flatMap_cons, List.length_cons, List.length_append]
      omega

theorem spaced_here {c : Char} (h : isSolid c = true) (cs : List Char) :
    spaced c (c :: cs) = .ok () cs :=
  spaced_ok (skipTrivia_solid cs h)

theorem refuses_comma (rest : List Char) : (spaced ',').Refuses (')' :: rest) :=
  refuses_spaced fun r e => by
    rw [skipTrivia_solid rest (by decide)] at e
    cases e

/-- Further items, each after a comma, are read up to the closing parenthesis. -/
theorem many_commas {items : List β}
    (h : ∀ b ∈ items, ∀ rest, Ends rest → p (' ' :: (text b ++ rest)) = .ok (value b) rest) :
    many (spaced ',' >>= fun _ => p)
        (items.flatMap (fun b => ',' :: ' ' :: text b) ++ ')' :: rest) =
      .ok (items.map value) (')' :: rest) := by
  -- the fuel is more than there are items, since each takes two characters at least
  have within (fuel : Nat) (hf : items.length ≤ fuel) :
      manyWithin (spaced ',' >>= fun _ => p) fuel
          (items.flatMap (fun b => ',' :: ' ' :: text b) ++ ')' :: rest) =
        .ok (items.map value) (')' :: rest) := by
    induction items generalizing fuel with
    | nil => exact manyWithin_of_refuses ((refuses_comma rest).bind _) fuel
    | cons b items ih =>
        obtain ⟨fuel, rfl⟩ : ∃ f, fuel = f + 1 := ⟨fuel - 1, by simp at hf; omega⟩
        have more := ih (fun b hb => h b (List.mem_cons_of_mem _ hb)) fuel (by simpa using hf)
        refine manyWithin_cons ?_ more
        rw [List.flatMap_cons, List.append_assoc, List.cons_append, List.cons_append,
          bind_ok (spaced_here (by decide) _)]
        exact h b List.mem_cons_self _ (ends_commas text items rest)
  refine within _ ?_
  rw [List.length_append]
  exact Nat.le_trans (length_le_commas text items) (by omega)

end Lists

/-! ### Bodies -/

section Bodies

variable {rule : Grammar Rule} {rest : List Char}

/-- A call is read to its closing parenthesis. -/
theorem callBody_yields {name : String} (form : CallForm) {cs rest' : List Char}
    {want : Option Rule} (hf : callForm name = form)
    (h : (callArguments rule name form cs).Yields want rest')
    (hr : skipTrivia rest' = ')' :: rest) : (callBody rule name cs).Yields want rest := by
  rw [callBody, hf]
  exact pass_yields h fun r => bind_ok (punctuation_ok hr)

/-- A call is read from its arguments and the parenthesis behind them. -/
theorem callBody_ok {name : String} (form : CallForm) {cs rest' : List Char} {r : Rule}
    (hf : callForm name = form) (h : callArguments rule name form cs = .ok r rest')
    (hr : skipTrivia rest' = ')' :: rest) : callBody rule name cs = .ok r rest := by
  have whole : (callBody rule name cs).Yields (some r) rest := callBody_yields form hf h hr
  exact whole

theorem skipTrivia_close (rest : List Char) : skipTrivia (')' :: rest) = ')' :: rest :=
  skipTrivia_solid rest (by decide)

theorem ends_comma (rest : List Char) : Ends (',' :: rest) := startsOutside_cons (by decide)

theorem ends_close (rest : List Char) : Ends (')' :: rest) := startsOutside_cons (by decide)

/-- The name in front of another argument. -/
theorem nameThenComma {α : Type} {field : String} (h : isName field = true) (cs : List Char)
    (f : String → Grammar α) :
    (do
      let a ← argument fieldName
      punctuation ','
      f a : Grammar α) (field.toList ++ ',' :: cs) = f field cs := by
  rw [bind_ok (nameArgument_ok h (ends_comma cs)), bind_ok (punctuation_here (by decide) cs)]

/-- A call of `uniqueBy` is read back. -/
theorem callBody_uniqueBy {array key : String} (h : isName array = true) :
    callBody rule "uniqueBy" (commaSeparated [array.toList, quotedText key] ++ ')' :: rest) =
      .ok (.atom (.uniqueBy array key) none) rest := by
  refine callBody_ok .uniqueBy (by decide) ?_ (skipTrivia_close rest)
  simp only [commaSeparated, List.append_assoc, List.cons_append, callArguments]
  rw [nameThenComma h]
  exact map_ok ((argument_space _ _).trans (stringArgument_ok _ key _)) _

/-- A call for a length is read back. -/
theorem callBody_length {bound : LengthBound} {array : String} {limit : UInt64}
    (h : isName array = true) :
    callBody rule bound.callName
        (commaSeparated [array.toList, Decimal.digitsOf limit.toNat] ++ ')' :: rest) =
      .ok (.atom (.length bound array limit) none) rest := by
  refine callBody_ok (.length bound) (by cases bound <;> decide) ?_ (skipTrivia_close rest)
  simp only [commaSeparated, List.append_assoc, List.cons_append, callArguments]
  rw [nameThenComma h, bind_ok ((argument_space _ _).trans
    (numberArgument_ok limit.toNat_lt (ends_close rest))), pure_apply, UInt64.ofNat_toNat]

/-- A call of `contextual` is read back. -/
theorem callBody_contextual {source : String} :
    callBody rule "contextual" (commaSeparated [quotedText source] ++ ')' :: rest) =
      .ok (.atom (.contextual source) none) rest := by
  refine callBody_ok .contextual (by decide) ?_ (skipTrivia_close rest)
  simp only [commaSeparated, callArguments]
  exact map_ok (stringArgument_ok _ source _) _

/-- A call of `expression` is read back. -/
theorem callBody_expression {source : String} :
    callBody rule "expression" (commaSeparated [quotedText source] ++ ')' :: rest) =
      .ok (.atom (.expression source) none) rest := by
  refine callBody_ok .expression (by decide) ?_ (skipTrivia_close rest)
  simp only [commaSeparated, callArguments]
  exact map_ok (stringArgument_ok _ source _) _

/-- A call of `custom` is read back. -/
theorem callBody_custom {name : String} {p : Payload} (h : p.value.nesting ≤ Json.depthLimit) :
    callBody rule "custom"
        (commaSeparated [quotedText name, Text.quote p.value.write] ++ ')' :: rest) =
      .ok (.atom (.custom name p) none) rest := by
  refine callBody_ok .custom (by decide) ?_ (skipTrivia_close rest)
  simp only [commaSeparated, List.append_assoc, List.cons_append, callArguments]
  rw [bind_ok (stringArgument_ok _ name _), bind_ok (punctuation_here (by decide) _),
    bind_ok ((argument_space _ _).trans (payloadArgument_ok h _)), pure_apply]

/-- A parameter is read back. -/
theorem parameter_ok {key : String} {v : Literal} (hk : isName key = true) (hv : v.check = .ok ())
    {rest : List Char} (hr : Ends rest) :
    parameter (' ' :: (key.toList ++ [' ', '=', ' '] ++ v.render ++ rest)) = .ok (key, v) rest := by
  have name : argument (expecting "parameter name" nameString)
      (key.toList ++ ' ' :: '=' :: ' ' :: (v.render ++ rest)) =
        .ok key (' ' :: '=' :: ' ' :: (v.render ++ rest)) := by
    refine argument_ok ?_
    rw [skipTrivia_name _ hk]
    exact expecting_ok (nameString_ok hk (startsOutside_cons (by decide))) _
  have e : key.toList ++ [' ', '=', ' '] ++ v.render ++ rest =
      key.toList ++ ' ' :: '=' :: ' ' :: (v.render ++ rest) := by simp
  rw [e, parameter, bind_ok ((argument_space _ _).trans name), trivia_bind, skipTrivia_space,
    skipTrivia_solid _ (by decide), bind_ok (expectingChar_ok (commit_ok (char_ok _ _)) _),
    bind_ok ((argument_space _ _).trans (literalArgument_ok hv hr)), pure_apply]

/-- A call of `template` is read back. -/
theorem callBody_template {name : String} {params : KeyMap Literal}
    (h : (Atom.template name params).check = .ok ()) :
    callBody rule "template" (commaSeparated (quotedText name ::
        params.entries.map fun e => e.1.toList ++ [' ', '=', ' '] ++ e.2.render) ++ ')' :: rest) =
      .ok (.atom (.template name params) none) rest := by
  have checked := Atom.check_template h
  have params_ok : many (do spaced ','; parameter : Grammar (String × Literal))
      (params.entries.flatMap (fun e =>
          ',' :: ' ' :: (e.1.toList ++ [' ', '=', ' '] ++ e.2.render)) ++ ')' :: rest) =
        .ok (params.entries.map id) (')' :: rest) :=
    many_commas fun e he rest hr => by
      obtain ⟨hk, hv⟩ := checked e he
      exact parameter_ok hk hv hr
  refine callBody_ok .template (by decide) ?_ (skipTrivia_close rest)
  rw [commaSeparated_cons, List.flatMap_map, List.append_assoc, callArguments,
    bind_ok (stringArgument_ok _ name _), bind_ok params_ok, pure_apply, List.map_id,
    KeyMap.ofList_entries]

/-- A name that is not reserved is that of a plain function. -/
theorem callForm_of_plain {name : String} (h : isReservedCall name = false) :
    callForm name = .plain := by
  -- the names of the forms are the reserved ones
  have none : callForms.lookup name = none := by
    refine List.lookup_eq_none_iff.mpr fun e he => ?_
    have hm : e.1 ∈ reservedCalls := by
      have := List.mem_map_of_mem (f := Prod.fst) he
      rwa [show callForms.map Prod.fst = reservedCalls by decide] at this
    rw [bne_iff_ne]
    rintro rfl
    exact absurd (List.contains_iff_mem.mpr hm) (by rw [← isReservedCall, h]; decide)
  rw [callForm, none, Option.getD_none]

theorem refuses_functionArgument (rest : List Char) : functionArgument.Refuses (')' :: rest) := by
  have hw : headWord (')' :: rest) = [] := headWord_of_ends (startsOutside_cons (by decide))
  have literal : literalValue.Refuses (')' :: rest) :=
    refuses_literalValue (by decide) (by decide) (by rw [hw]; decide) (by rw [hw]; decide)
      (by rw [hw]; decide)
  have field : fieldName.Refuses (')' :: rest) :=
    Refuses.marked ((refuses_fieldReference fun r e => by cases e).orElse
      ((refuses_name (startsOutside_cons (by decide))).bind _)) _
  exact Refuses.marked ((literal.bind _).orElse (field.bind _)) _

/-- A call of a plain function is read back. -/
theorem callBody_plain {name : String} {args : List Argument} (hn : isReservedCall name = false)
    (h : ∀ a ∈ args, a.value.checkOperand a.kind = .ok ()) :
    callBody rule name (commaSeparated (args.map Argument.render) ++ ')' :: rest) =
      .ok (.atom (.call name args) none) rest := by
  refine callBody_ok .plain (callForm_of_plain hn) ?_ (skipTrivia_close rest)
  have start (a : Argument) (ha : a ∈ args) (rest : List Char) :
      skipTrivia (a.render ++ rest) = a.render ++ rest := by
    obtain ⟨c, t, e, hc⟩ := exists_argument (h a ha) rest
    rw [e, skipTrivia_solid t hc]
  rw [callArguments, trivia_bind]
  cases args with
  | nil =>
      have stop : (do trivia; functionArgument : Grammar Argument).Refuses (')' :: rest) :=
        Refuses.of_bind (p := trivia) rfl (by
          rw [skipTrivia_close]
          exact refuses_functionArgument rest)
      exact (congrArg _ (skipTrivia_close rest)).trans (map_ok (separated_of_refuses stop) _)
  | cons a args =>
      have ha := h a List.mem_cons_self
      have first := functionArgument_ok ha (ends_commas Argument.render args rest)
      have more : many (do spaced ','; trivia; functionArgument : Grammar Argument)
          (args.flatMap (fun b => ',' :: ' ' :: b.render) ++ ')' :: rest) =
            .ok (args.map id) (')' :: rest) :=
        many_commas fun b hb rest hr => by
          rw [trivia_bind, skipTrivia_space, start b (List.mem_cons_of_mem a hb)]
          exact functionArgument_ok (h b (List.mem_cons_of_mem a hb)) hr
      rw [List.map_id] at more
      rw [List.map_cons, commaSeparated_cons, List.flatMap_map, List.append_assoc,
        start a List.mem_cons_self]
      refine map_ok (separated_cons ?_ more) _
      rw [trivia_bind, start a List.mem_cons_self]
      exact first

/-! ### Calls with a rule inside -/

/-- The rule at the end of the arguments yields what it yields alone. -/
theorem ruleArgument_yields {body rest' : List Char} {want : Option Rule}
    (hb : (rule (skipTrivia body)).Yields want rest') :
    (argument rule (' ' :: body)).Yields want rest' := by
  rw [argument_space, argument, trivia_bind]
  exact commit_yields hb

/-- The name of the call a scope is written as. -/
def scopeName : Scope → String
  | .conditional requirement _ => requirement.name
  | .forEach _ => "forEach"
  | .guarded guard _ => guard.name
  | .withDefault _ _ => "withDefault"

/-- The arguments of that call. -/
def scopeArguments (body : List Char) : Scope → List (List Char)
  | .conditional _ target => [target.toList, body]
  | .forEach array => [array.toList, body]
  | .guarded _ field => [field.toList, body]
  | .withDefault field value => [field.toList, value.render, body]

/-- A scope is written as a call. -/
theorem render_scope (s : Scope) (body : List Char) :
    s.render body = callText (scopeName s) (scopeArguments body s) := by
  cases s <;> rfl

/-- **A scope is read back around the rule inside it.** -/
theorem callBody_scope {s : Scope} {body rest' : List Char} {want : Option Rule}
    (hs : s.check = .ok ()) (hb : (rule (skipTrivia (body ++ ')' :: rest))).Yields want rest')
    (hr : skipTrivia rest' = ')' :: rest) :
    (callBody rule (scopeName s) (commaSeparated (scopeArguments body s) ++ ')' :: rest)).Yields
      (want.map fun r => .scope s r none) rest := by
  have last := ruleArgument_yields hb
  cases s with
  | conditional k target =>
      refine callBody_yields (.requirement k) (by cases k <;> rfl) ?_ hr
      simp only [scopeArguments, commaSeparated, List.append_assoc, List.cons_append, callArguments]
      rw [nameThenComma (checkName_ok_iff.mp hs)]
      exact map_yields last fun _ => rfl
  | forEach array =>
      refine callBody_yields .forEach rfl ?_ hr
      simp only [scopeArguments, commaSeparated, List.append_assoc, List.cons_append, callArguments]
      rw [nameThenComma (checkName_ok_iff.mp hs)]
      exact map_yields last fun _ => rfl
  | guarded g field =>
      refine callBody_yields (.guarded g) (by cases g <;> rfl) ?_ hr
      simp only [scopeArguments, commaSeparated, List.append_assoc, List.cons_append, callArguments]
      rw [nameThenComma (checkName_ok_iff.mp hs)]
      exact map_yields last fun _ => rfl
  | withDefault field v =>
      obtain ⟨hf, hv⟩ := Scope.check_withDefault hs
      refine callBody_yields .withDefault rfl ?_ hr
      simp only [scopeArguments, commaSeparated, List.append_assoc, List.cons_append, callArguments]
      rw [nameThenComma hf,
        bind_ok ((argument_space _ _).trans (literalArgument_ok hv (ends_comma _))),
        bind_ok (punctuation_here (by decide) _)]
      exact map_yields last fun _ => rfl

/-- A quota is read back with the rules in its brackets. -/
theorem callBody_quota {kind : Quota} {count : UInt32} {members rest' : List Char}
    {wants : Option (List Rule)}
    (hm : (separated rule (spaced ',') (members ++ ']' :: ')' :: rest)).Yields wants rest')
    (hr : skipTrivia rest' = ']' :: ')' :: rest) :
    (callBody rule kind.name (Decimal.digitsOf count.toNat ++
        ',' :: ' ' :: '[' :: (members ++ ']' :: ')' :: rest))).Yields
      (wants.map fun rs => .junction (.quota kind count) rs none) rest := by
  have list : (ruleList rule (' ' :: '[' :: (members ++ ']' :: ')' :: rest))).Yields
      wants (')' :: rest) := by
    rw [ruleList, trivia_bind, skipTrivia_space, skipTrivia_solid _ (by decide),
      bind_ok (expectingChar_ok (commit_ok (char_ok _ _)) _)]
    exact pass_yields hm fun rs => bind_ok (punctuation_ok hr)
  refine callBody_yields (.quota kind) (by cases kind <;> rfl) ?_ (skipTrivia_close rest)
  rw [callArguments, bind_ok (numberArgument_ok count.toNat_lt (ends_comma _)),
    bind_ok (punctuation_here (by decide) _), UInt32.ofNat_toNat]
  exact map_yields list fun _ => rfl

end Bodies

end Rulebook.Dsl
