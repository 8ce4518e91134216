import Rulebook.Proofs.Dsl.Expression
import Rulebook.Proofs.Dsl.Reread

/-!
# Rulebook — Proofs — Dsl — Parentheses

What becomes of the parentheses of a call whose name has been taken for a keyword.  They hold no
expression, since neither a value nor the name of a field is one, and no group either, unless there
is a keyword in them and nothing else (`unary_parentheses`).
-/

namespace Rulebook.Dsl

open Grammar
open Text (StartsOutside startsOutside_cons)

variable {below below₂ : Option (Grammar Rule)} {cs rest t : List Char} {c : Char} {n : Nat}

/-! ### Where no operand starts -/

/-- A keyword starts like a name. -/
theorem plain_of_start (h : Text.isNameStart c = false) : Plain (c :: t) := by
  rw [Plain, headWord]
  cases hp : Text.isNamePart c with
  | false => rw [List.takeWhile_cons_of_neg (by rw [hp]; decide)]; decide
  | true =>
      rw [List.takeWhile_cons_of_pos hp]
      cases hk : Connective.ofKeyword? (c :: t.takeWhile Text.isNamePart) with
      | none => rfl
      | some op =>
          have name := isName_of_ofKeyword? hk
          rw [Text.isName, h] at name
          cases name

theorem refuses_operandWith (hs : isSolid c = true) (hn : Text.isNameStart c = false)
    (hp : c ≠ '(') (hd : c ≠ '$') : (operandWith below below₂).Refuses (c :: t) := by
  have skip : skipTrivia (c :: t) = c :: t := skipTrivia_solid t hs
  have primary : (primary below below₂).Refuses (c :: t) := by
    refine Refuses.of_bind (p := trivia) rfl ?_
    rw [skip]
    exact Refuses.marked ((refuses_parenthesized fun u e => hp (List.cons.inj e).1).orElse
      ((refuses_referenceCondition fun u e => hd (List.cons.inj e).1).orElse
        (((refuses_name (startsOutside_cons hn)).bind _).bind _))) _
  refine Refuses.of_bind (p := trivia) rfl ?_
  rw [skip]
  exact Refuses.of_bind (optional_of_refuses (refuses_keyword_of_none (plain_of_start hn) .not))
    primary

/-- Behind an argument there is a comma or a parenthesis. -/
def isClosing (c : Char) : Bool := c = ',' || c = ')'

theorem isClosing_cases (hc : isClosing c = true) : c = ',' ∨ c = ')' := by
  simpa [isClosing] using hc

theorem refuses_unary_closing (hc : isClosing c = true) (n : Nat) :
    Refuses (unary n) (c :: t) := by
  rw [unary_eq]
  rcases isClosing_cases hc with rfl | rfl <;>
    exact refuses_operandWith (by decide) (by decide) (by decide) (by decide)

theorem ends_closing (hc : isClosing c = true) : Ends (c :: t) := by
  rcases isClosing_cases hc with rfl | rfl <;> exact startsOutside_cons (by decide)

theorem skipTrivia_closing (hc : isClosing c = true) : skipTrivia (c :: t) = c :: t := by
  rcases isClosing_cases hc with rfl | rfl <;> exact skipTrivia_solid _ (by decide)

theorem fails_expression (n : Nat) (h : ∀ k, Fails (unary k) (skipTrivia cs)) :
    (expression (levelBelow n)).Fails cs := by
  cases n with
  | zero => exact ⟨_, _, rfl⟩
  | succ n => exact ((((h n).bind _).bind _).bind _).bind _

/-! ### Arguments are no expressions -/

theorem fails_conditionRest (hc : isClosing c = true) (field : String) :
    (conditionRest field).Fails (c :: t) := by
  have comparison : (expecting "comparison operator" (commit comparison)).Fails (c :: t) := by
    rcases isClosing_cases hc with rfl | rfl <;> exact ⟨_, _, rfl⟩
  refine Fails.of_bind (p := trivia) rfl ?_
  rw [skipTrivia_closing hc]
  exact comparison.bind _

/-- A name with neither a comparison nor parentheses behind it is no operand. -/
theorem fails_name {name : String} (hn : isName name = true) (hc : isClosing c = true) (n : Nat) :
    Fails (unary n) (name.toList ++ c :: t) := by
  have hr : Ends (c :: t) := ends_closing hc
  rw [unary_eq]
  refine Fails.of_bind (p := trivia) rfl ?_
  rw [skipTrivia_name _ hn]
  by_cases hk : Connective.ofKeyword? name.toList = some .not
  · refine Fails.of_bind (optional_of_ok (keyword_ok hk hr)) ?_
    refine Fails.bind ?_ _
    cases n with
    | zero => exact ⟨_, _, rfl⟩
    | succ n => exact fails_of_yields ((refuses_unary_closing hc n).fails.commit [])
  · have refuses : (keyword .not).Refuses (name.toList ++ c :: t) :=
      refuses_keyword (by rwa [headWord_append (isNamePart_of_isName hn) hr])
    refine Fails.of_bind (optional_of_refuses refuses) ?_
    refine Fails.of_bind (p := trivia) rfl ?_
    rw [skipTrivia_name _ hn]
    refine Fails.marked ?_ _
    have parenthesis : (spaced '(').Refuses (c :: t) := refuses_spaced fun u e => by
      rw [skipTrivia_closing hc] at e
      cases e
      cases hc
    have named : (named (levelBelow n)).Fails (name.toList ++ c :: t) :=
      Fails.of_bind (nameString_ok hn hr)
        (Fails.of_bind (optional_of_refuses parenthesis) (fails_conditionRest hc name))
    obtain ⟨e, u, h⟩ := named
    exact ⟨e, u, (orElse_named hn _).trans h⟩

theorem fails_reference {name : String} (hn : isName name = true) (hc : isClosing c = true)
    (n : Nat) : Fails (unary n) (referenceText name ++ c :: t) := by
  have skip : skipTrivia (referenceText name ++ c :: t) = referenceText name ++ c :: t :=
    skipTrivia_solid _ (by decide)
  have plain : Plain (referenceText name ++ c :: t) := plain_of_start (by decide)
  rw [unary_eq]
  refine Fails.of_bind (p := trivia) rfl ?_
  rw [skip]
  refine Fails.of_bind (optional_of_refuses (refuses_keyword_of_none plain .not)) ?_
  refine Fails.of_bind (p := trivia) rfl ?_
  rw [skip]
  refine Fails.marked ?_ _
  have reference : referenceCondition.Fails (referenceText name ++ c :: t) :=
    Fails.of_bind (fieldReference_ok hn _) (fails_conditionRest hc name)
  have parentheses : (parenthesized (levelBelow n) (levelBelow (n - 1))).Refuses
      (referenceText name ++ c :: t) := refuses_parenthesized fun u e => by cases e
  have named : (named (levelBelow n)).Refuses (referenceText name ++ c :: t) :=
    ((refuses_name (startsOutside_cons (by decide))).bind _).bind _
  exact parentheses.fails.orElse (reference.orElse named.fails)

/-- An argument is a name, a reference, or starts with what starts neither an operand nor a
keyword. -/
theorem render_cases {a : Argument} (h : a.value.checkOperand a.kind = .ok ()) :
    (∃ name, a.render = name.toList ∧ isName name = true ∧
      Connective.ofKeyword? name.toList = soleKeyword? [a]) ∨
    (∃ name, a.render = referenceText name ∧ isName name = true ∧ soleKeyword? [a] = none) ∨
    (soleKeyword? [a] = none ∧ ∀ t, ∃ d u, a.render ++ t = d :: u ∧ isSolid d = true ∧
      Text.isNameStart d = false ∧ d ≠ '(' ∧ d ≠ '$') := by
  have number {cs : List Char} (hc : ∃ d u, cs = d :: u ∧ isNumberStart d = true) :
      ∃ d u, cs = d :: u ∧ isSolid d = true ∧ Text.isNameStart d = false ∧ d ≠ '(' ∧ d ≠ '$' := by
    obtain ⟨d, u, e, hd⟩ := hc
    refine ⟨d, u, e, isSolid_of_isNumberStart hd, ?_, ?_, ?_⟩
    · cases hs : Text.isNameStart d with
      | false => rfl
      | true => rw [isNumberStart_of_isNameStart hs] at hd; cases hd
    · rintro rfl
      exact absurd hd (by decide)
    · rintro rfl
      exact absurd hd (by decide)
  obtain ⟨v, kind⟩ := a
  cases kind with
  | literal =>
      cases v with
      | null => exact .inl ⟨"null", rfl, by decide, by decide⟩
      | bool b =>
          cases b with
          | true => exact .inl ⟨"true", rfl, by decide, by decide⟩
          | false => exact .inl ⟨"false", rfl, by decide, by decide⟩
      | int i => exact .inr (.inr ⟨rfl, fun t => number (exists_numberStart_integerText i t)⟩)
      | float x =>
          exact .inr (.inr ⟨rfl, fun t =>
            number (exists_numberStart_ruleText (isFinite_of_check h) t)⟩)
      | string s =>
          exact .inr (.inr ⟨rfl, fun t =>
            ⟨'"', _, rfl, by decide, by decide, by decide, by decide⟩⟩)
  | fieldReference =>
      obtain ⟨field, rfl, hs⟩ := exists_field_of_checkReference h
      by_cases hw : (field = "true" || field = "false" || field = "null") = true
      · refine .inr (.inl ⟨field, if_pos hw, hs, ?_⟩)
        simp only [Bool.or_eq_true, decide_eq_true_eq] at hw
        rcases hw with (rfl | rfl) | rfl <;> decide
      · exact .inl ⟨field, if_neg hw, hs, rfl⟩

theorem fails_argument {a : Argument} (h : a.value.checkOperand a.kind = .ok ())
    (hc : isClosing c = true) (n : Nat) : Fails (unary n) (a.render ++ c :: t) := by
  rcases render_cases h with ⟨name, e, hn, -⟩ | ⟨name, e, hn, -⟩ | ⟨-, start⟩
  · rw [e]
    exact fails_name hn hc n
  · rw [e]
    exact fails_reference hn hc n
  · obtain ⟨d, u, e, hs, hd, hp, hr⟩ := start (c :: t)
    rw [e, unary_eq]
    exact (refuses_operandWith hs hd hp hr).fails

/-! ### Arguments are no groups -/

/-- A keyword with a comma behind it has no member. -/
theorem fails_group_keyword {op : Connective} {word : List Char}
    (hk : Connective.ofKeyword? word = some op) (n : Nat) :
    (group (levelBelow n) (levelBelow (n - 1))).Fails (word ++ ',' :: t) := by
  have comma : isClosing ',' = true := by decide
  have skip : skipTrivia (',' :: t) = ',' :: t := skipTrivia_closing comma
  have stop : ∀ u, skipTrivia (',' :: t) ≠ ')' :: u := fun u e => by rw [skip] at e; cases e
  rw [Fails, group_member hk (ends_closing comma) stop, skip]
  split
  · refine Fails.bind ?_ _
    cases n with
    | zero => exact ⟨_, _, rfl⟩
    | succ n =>
        cases n with
        | zero => exact ⟨_, _, rfl⟩
        | succ n => exact (refuses_unary_closing comma n).fails.bind _
  · refine Fails.bind (fails_expression n fun k => ?_) _
    rw [skip]
    exact (refuses_unary_closing comma k).fails

theorem fails_group_of_plain (h : Plain (skipTrivia cs)) : (group below below₂).Fails cs :=
  (Refuses.of_bind (p := trivia) rfl ((refuses_connective h).bind _)).fails

theorem fails_group_argument {a : Argument} (h : a.value.checkOperand a.kind = .ok ())
    (hc : isClosing c = true) (hk : soleKeyword? [a] ≠ none → c = ',') (n : Nat) :
    (group (levelBelow n) (levelBelow (n - 1))).Fails (a.render ++ c :: t) := by
  rcases render_cases h with ⟨name, e, hn, hname⟩ | ⟨name, e, hn, -⟩ | ⟨-, start⟩
  · rw [e]
    cases hs : soleKeyword? [a] with
    | some op =>
        rw [hk (by rw [hs]; exact nofun)]
        exact fails_group_keyword (hname.trans hs) n
    | none =>
        refine fails_group_of_plain ?_
        rw [skipTrivia_name _ hn]
        exact plain_name hn (hname.trans hs) (ends_closing hc)
  · rw [e]
    refine fails_group_of_plain ?_
    rw [show skipTrivia (referenceText name ++ c :: t) = _ from skipTrivia_solid _ (by decide)]
    exact plain_of_start (by decide)
  · obtain ⟨d, u, e, hs, hd, -⟩ := start (c :: t)
    refine fails_group_of_plain ?_
    rw [e, skipTrivia_solid u hs]
    exact plain_of_start hd

/-! ### Arguments in parentheses -/

theorem parenthesized_none (hg : (group below below₂).Fails cs) (he : (expression below).Fails cs) :
    (parenthesized below below₂ ('(' :: cs)).Yields none rest := by
  rw [parenthesized, bind_ok (char_ok _ _)]
  rcases hg.optional rest with h | h
  · rw [bind_ok h]
    exact bind_none_yields (he.commit rest)
  · exact bind_none_yields h

/-- **The parentheses of a call are read as a group of no members** if there is a keyword in them
and nothing else, and not at all otherwise. -/
theorem unary_parentheses {args : List Argument}
    (h : ∀ a ∈ args, a.value.checkOperand a.kind = .ok ()) (n : Nat) (rest : List Char) :
    (unary n ('(' :: (commaSeparated (args.map Argument.render) ++ ')' :: rest))).Yields
      ((soleKeyword? args).map fun op => .group op []) rest := by
  rw [unary_eq]
  cases args with
  | nil =>
      have close : isClosing ')' = true := by decide
      have skip : skipTrivia (')' :: rest) = ')' :: rest := skipTrivia_closing close
      refine operandWith_parenthesized (parenthesized_none (fails_group_of_plain ?_)
        (fails_expression n fun k => ?_))
      · rw [List.map_nil, commaSeparated, List.nil_append, skip]
        exact plain_of_start (by decide)
      · rw [List.map_nil, commaSeparated, List.nil_append, skip]
        exact (refuses_unary_closing close k).fails
  | cons a as =>
      have ha := h a List.mem_cons_self
      obtain ⟨c, t, e, hc, hsole⟩ : ∃ c t,
          commaSeparated ((a :: as).map Argument.render) ++ ')' :: rest = a.render ++ c :: t ∧
            isClosing c = true ∧ (c = ',' ∨ (c = ')' ∧ t = rest ∧ as = [])) := by
        rw [List.map_cons, commaSeparated_cons, List.append_assoc]
        cases as with
        | nil => exact ⟨')', rest, rfl, by decide, .inr ⟨rfl, rfl, rfl⟩⟩
        | cons b as => exact ⟨',', _, rfl, by decide, .inl rfl⟩
      have skip : skipTrivia (a.render ++ c :: t) = a.render ++ c :: t := by
        obtain ⟨d, u, he, hd⟩ := exists_argument ha (c :: t)
        rw [he, skipTrivia_solid u hd]
      rw [e]
      cases hk : soleKeyword? (a :: as) with
      | none =>
          -- what follows the first argument is neither a member of a group nor a comparison
          refine operandWith_parenthesized (parenthesized_none
            (fails_group_argument ha hc (fun hone => ?_) n) (fails_expression n fun k => ?_))
          · rcases hsole with hcomma | ⟨-, -, rfl⟩
            · exact hcomma
            · exact absurd hk hone
          · rw [skip]
            exact fails_argument ha hc k
      | some op =>
          obtain rfl : as = [] := by
            cases as with
            | nil => rfl
            | cons b as => rw [soleKeyword?_cons_cons] at hk; cases hk
          obtain ⟨rfl, rfl⟩ : c = ')' ∧ t = rest := by
            have same := List.append_cancel_left e
            cases same
            exact ⟨rfl, rfl⟩
          rcases render_cases ha with ⟨name, e, -, hname⟩ | ⟨-, -, -, hs⟩ | ⟨hs, -⟩
          · rw [e]
            exact operandWith_group (group_nil (hname.trans hk) t) (skipTrivia_close t)
          · rw [hs] at hk
            cases hk
          · rw [hs] at hk
            cases hk

/-- A call whose name is taken for `NOT` is read as a group under it. -/
theorem operandWith_negation {word : List Char} {unary : Grammar Rule} {want : Option Rule}
    (hk : Connective.ofKeyword? word = some .not) (ht : Ends t)
    (h : (unary t).Yields want rest) : (operandWith (some unary) below₂ (word ++ t)).Yields
      (want.map fun r => .group .not [r]) rest := by
  rw [operandWith, trivia_bind, skipTrivia_ofKeyword? _ hk,
    bind_ok (optional_of_ok (keyword_ok hk ht))]
  exact map_yields (commit_yields h) fun _ => rfl

end Rulebook.Dsl
