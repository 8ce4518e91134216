import Rulebook.Dsl.Expression
import Rulebook.Proofs.Dsl.Call

/-!
# Rulebook — Proofs — Dsl — Expression

What the readers of expressions do, one by one: conditions and calls (`operandWith_atom`,
`operandWith_call`), parentheses (`operandWith_group`, `operandWith_expression`), groups after
their connective (`group_nil`, `group_not_cons`, `group_cons`) and chains
(`implication_of_chain`).  What they yield follows from what the readers of the rules inside yield.
-/

namespace Rulebook.Dsl

open Grammar
open Text (StartsOutside startsOutside_cons)

/-- The text does not start with the keyword of a connective. -/
def Plain (cs : List Char) : Prop := Connective.ofKeyword? (headWord cs) = none

/-- Where no name goes on, no keyword stands. -/
theorem plain_of_ends {cs : List Char} (h : Ends cs) : Plain cs := by
  rw [Plain, headWord_of_ends h]
  decide

/-- A name that is no keyword is none of the next word. -/
theorem plain_name {name : String} {rest : List Char} (h : isName name = true)
    (hk : Connective.ofKeyword? name.toList = none) (hr : Ends rest) :
    Plain (name.toList ++ rest) := by
  rwa [Plain, headWord_append (isNamePart_of_isName h) hr]

section Operands

variable {below below₂ : Option (Grammar Rule)} {cs rest : List Char} {r : Rule}
  {want : Option Rule}

/-! ### Operands without a `NOT` -/

/-- A space in front of an operand is skipped. -/
theorem operandWith_space (cs : List Char) :
    operandWith below below₂ (' ' :: cs) = operandWith below below₂ cs := by
  rw [operandWith, trivia_bind, trivia_bind, skipTrivia_space]

/-- An operand without `NOT` in front is a primary rule. -/
theorem operandWith_primary (hs : skipTrivia cs = cs) (hn : (keyword .not).Refuses cs)
    (h : ((parenthesized below below₂ <|> referenceCondition <|> named below) cs).Yields
      want rest) :
    (operandWith below below₂ cs).Yields want rest := by
  rw [operandWith, trivia_bind, hs, bind_ok (optional_of_refuses hn)]
  show (primary below below₂ cs).Yields want rest
  rw [primary, trivia_bind, hs]
  exact expecting_yields h _

/-- Without its parenthesis a text is refused as a rule in parentheses. -/
theorem refuses_parenthesized (h : ∀ t, cs ≠ '(' :: t) :
    (parenthesized below below₂).Refuses cs :=
  (refuses_char h).bind _

/-- Without its mark a text is refused as a condition on a reference. -/
theorem refuses_referenceCondition (h : ∀ t, cs ≠ '$' :: t) : referenceCondition.Refuses cs :=
  (refuses_fieldReference h).bind _

/-- A name is neither in parentheses nor a reference. -/
theorem orElse_named {name : String} (hn : isName name = true) (cs : List Char) :
    (parenthesized below below₂ <|> referenceCondition <|> named below) (name.toList ++ cs) =
      named below (name.toList ++ cs) := by
  obtain ⟨c, t, e, hc⟩ := exists_cons_of_isName hn
  have ne (d : Char) (hd : Text.isNameStart d = false) : ∀ t, name.toList ++ cs ≠ d :: t := by
    intro t' he
    rw [e] at he
    cases he
    rw [hc] at hd
    cases hd
  rw [orElse_of_refuses (refuses_parenthesized (ne '(' (by decide))),
    orElse_of_refuses (refuses_referenceCondition (ne '$' (by decide)))]

/-- An operand that starts with a name is a call or a condition. -/
theorem operandWith_named {name : String} (hn : isName name = true)
    (hk : Connective.ofKeyword? name.toList ≠ some .not) (hr : Ends cs)
    (h : (named below (name.toList ++ cs)).Yields want rest) :
    (operandWith below below₂ (name.toList ++ cs)).Yields want rest := by
  refine operandWith_primary (skipTrivia_name cs hn) (refuses_keyword ?_) ?_
  · rwa [headWord_append (isNamePart_of_isName hn) hr]
  · rwa [orElse_named hn]

/-! ### Calls -/

/-- **A call is read from its arguments**, unless its name is taken for `NOT`. -/
theorem operandWith_call {name : String} {args : List Char} (hn : isName name = true)
    (hk : Connective.ofKeyword? name.toList ≠ some .not)
    (h : (callBody (expression below) name args).Yields want rest) :
    (operandWith below below₂ (name.toList ++ '(' :: args)).Yields want rest := by
  have hb : Ends ('(' :: args) := startsOutside_cons (by decide)
  refine operandWith_named hn hk hb ?_
  rw [named, bind_ok (nameString_ok hn hb), bind_ok (optional_of_ok (spaced_here (by decide) args))]
  exact h

/-- The reserved names are names, and no keywords. -/
theorem isName_of_mem_reservedCalls :
    ∀ name ∈ reservedCalls, isName name = true ∧ Connective.ofKeyword? name.toList = none := by
  decide

/-- An operand that starts with a reserved name and a parenthesis is a call. -/
theorem operandWith_reserved {name : String} {args : List Char} (hn : name ∈ reservedCalls)
    (h : (callBody (expression below) name args).Yields want rest) :
    (operandWith below below₂ (name.toList ++ '(' :: args)).Yields want rest := by
  obtain ⟨hname, hk⟩ := isName_of_mem_reservedCalls name hn
  exact operandWith_call hname (by rw [hk]; exact nofun) h

theorem callText_append (name : String) (args : List (List Char)) (rest : List Char) :
    callText name args ++ rest = name.toList ++ '(' :: (commaSeparated args ++ ')' :: rest) := by
  simp [callText]

/-! ### Conditions -/

/-- A comparison starts with neither a blank, nor a comment, nor a bracket. -/
theorem exists_symbol (c : Comparison) :
    ∃ d t, c.symbol.toList = d :: t ∧ isSolid d = true ∧ d ≠ '(' := by
  cases c <;> exact ⟨_, _, rfl, by decide, by decide⟩

/-- Behind a field, a comparison and an operand are read as the condition on it. -/
theorem conditionRest_ok (field : String) (c : Comparison) {v : Literal} {kind : OperandKind}
    {value : List Char} (hs : skipTrivia (value ++ rest) = value ++ rest)
    (h : operand (value ++ rest) = .ok (v, kind) rest) :
    conditionRest field (' ' :: (c.symbol.toList ++ ' ' :: (value ++ rest))) =
      .ok (.atom (.condition ⟨field, c, v, kind⟩) none) rest := by
  obtain ⟨d, t, e, hd, -⟩ := exists_symbol c
  rw [conditionRest, trivia_bind, skipTrivia_space, e, List.cons_append, skipTrivia_solid _ hd,
    ← List.cons_append, ← e, bind_ok (expecting_ok (commit_ok (comparison_ok c _)) _),
    trivia_bind, skipTrivia_space, hs, bind_ok (commit_ok h)]
  rfl

/-- The text on the right of a condition. -/
def valueText (c : Condition) : List Char :=
  match c.kind with
  | .literal => c.value.render
  | .fieldReference => referenceText c.value.fieldName

/-- A condition is written as its field, its comparison and its operand. -/
theorem render_condition (c : Condition) (rest : List Char) :
    c.render ++ rest =
      fieldText c.field ++ ' ' :: (c.comparison.symbol.toList ++ ' ' :: (valueText c ++ rest)) := by
  cases hk : c.kind with
  | literal => simp [Condition.render, valueText, hk]
  | fieldReference => simp [Condition.render, valueText, hk]

/-- The operand of a condition that passes the check is read back. -/
theorem operand_valueText {c : Condition} (h : c.value.checkOperand c.kind = .ok ())
    (hr : Ends rest) : skipTrivia (valueText c ++ rest) = valueText c ++ rest ∧
      operand (valueText c ++ rest) = .ok (c.value, c.kind) rest := by
  obtain ⟨field, comparison, v, kind⟩ := c
  cases kind with
  | literal =>
      obtain ⟨d, t, e, hd, -⟩ := exists_render h rest
      refine ⟨?_, operand_literal h hr⟩
      show skipTrivia (v.render ++ rest) = v.render ++ rest
      rw [e, skipTrivia_solid t hd]
  | fieldReference =>
      obtain ⟨s, rfl, hs⟩ := exists_field_of_checkReference h
      exact ⟨skipTrivia_solid _ (by decide), operand_reference hs rest⟩

/-- **A condition reads back.** -/
theorem operandWith_condition {c : Condition} (h : (Atom.condition c).check = .ok ())
    (hr : Ends rest) : (operandWith below below₂ (c.render ++ rest)).Yields
      (some (.atom (.condition c) none)) rest := by
  obtain ⟨hf, hv⟩ := Atom.check_condition h
  obtain ⟨hs, ho⟩ := operand_valueText hv hr
  have tail := conditionRest_ok c.field c.comparison hs ho
  rw [render_condition, fieldText]
  split
  · -- the field reads like a keyword, so that it is written as a reference
    have hd : ∀ t, referenceText c.field ++ ' ' :: (c.comparison.symbol.toList ++
        ' ' :: (valueText c ++ rest)) ≠ '(' :: t := fun t e => by cases e
    refine operandWith_primary (skipTrivia_solid _ (by decide))
      (refuses_keyword_of_none (plain_of_ends (startsOutside_cons (by decide))) .not) ?_
    rw [orElse_of_refuses (refuses_parenthesized hd)]
    refine orElse_of_ok ?_
    rw [referenceCondition, bind_ok (fieldReference_ok hf _)]
    exact tail
  · rename_i hk
    have hk : Connective.ofKeyword? c.field.toList = none := by simpa using hk
    have hb : Ends (' ' :: (c.comparison.symbol.toList ++ ' ' :: (valueText c ++ rest))) :=
      startsOutside_cons (by decide)
    refine operandWith_named hf (by rw [hk]; exact nofun) hb ?_
    have refuses : (spaced '(').Refuses
        (' ' :: (c.comparison.symbol.toList ++ ' ' :: (valueText c ++ rest))) := by
      refine refuses_spaced fun t e => ?_
      obtain ⟨d, u, he, hd, hne⟩ := exists_symbol c.comparison
      rw [skipTrivia_space, he, List.cons_append, skipTrivia_solid _ hd] at e
      exact hne (List.cons.inj e).1
    rw [named, bind_ok (nameString_ok hf hb), bind_ok (optional_of_refuses refuses)]
    exact tail

/-! ### Atoms -/

/-- **An atom reads back**, unless it is a call whose name is taken for `NOT`, or a payload nests
deeper than JSON is read. -/
theorem operandWith_atom {a : Atom} (h : a.check = .ok ())
    (hk : ∀ name args, a = .call name args → Connective.ofKeyword? name.toList ≠ some .not)
    (hp : ∀ name payload, a = .custom name payload → payload.value.nesting ≤ Json.depthLimit)
    (hr : Ends rest) :
    (operandWith below below₂ (a.render ++ rest)).Yields (some (.atom a none)) rest := by
  cases a with
  | condition c => exact operandWith_condition h hr
  | uniqueBy array key =>
      rw [Atom.render, callText_append]
      exact operandWith_reserved (by decide) (callBody_uniqueBy (Atom.check_uniqueBy h))
  | length bound array limit =>
      rw [Atom.render, callText_append]
      exact operandWith_reserved (by cases bound <;> decide)
        (callBody_length (Atom.check_length h))
  | call name args =>
      obtain ⟨hn, hnot, hargs⟩ := Atom.check_call h
      rw [Atom.render, callText_append]
      exact operandWith_call hn (hk name args rfl) (callBody_plain hnot hargs)
  | contextual source =>
      rw [Atom.render, callText_append]
      exact operandWith_reserved (by decide) callBody_contextual
  | expression source =>
      rw [Atom.render, callText_append]
      exact operandWith_reserved (by decide) callBody_expression
  | template name params =>
      rw [Atom.render, callText_append]
      exact operandWith_reserved (by decide) (callBody_template h)
  | custom name payload =>
      rw [Atom.render, callText_append]
      exact operandWith_reserved (by decide) (callBody_custom (hp name payload rfl))

/-- The name of a scope is reserved. -/
theorem scopeName_mem (s : Scope) : scopeName s ∈ reservedCalls := by
  cases s with
  | conditional k target => cases k <;> simp [scopeName, Requirement.name, reservedCalls]
  | forEach array => simp [scopeName, reservedCalls]
  | guarded g field => cases g <;> simp [scopeName, Guard.name, reservedCalls]
  | withDefault field v => simp [scopeName, reservedCalls]

/-- A scope reads back around the rule inside it. -/
theorem operandWith_scope {s : Scope} {body rest' : List Char} (hs : s.check = .ok ())
    (hb : (expression below (skipTrivia (body ++ ')' :: rest))).Yields want rest')
    (hr : skipTrivia rest' = ')' :: rest) :
    (operandWith below below₂ (s.render body ++ rest)).Yields
      (want.map fun r => .scope s r none) rest := by
  rw [render_scope, callText_append]
  exact operandWith_reserved (scopeName_mem s) (callBody_scope hs hb hr)

/-! ### Parentheses -/

/-- An operand that starts with a parenthesis is a rule in parentheses. -/
theorem operandWith_parenthesized
    (h : (parenthesized below below₂ ('(' :: cs)).Yields want rest) :
    (operandWith below below₂ ('(' :: cs)).Yields want rest :=
  operandWith_primary (skipTrivia_solid cs (by decide))
    (refuses_keyword_of_none (plain_of_ends (startsOutside_cons (by decide))) .not)
    (orElse_yields h)

/-- A group in parentheses. -/
theorem operandWith_group {rest' : List Char} (h : (group below below₂ cs).Yields want rest')
    (hr : skipTrivia rest' = ')' :: rest) :
    (operandWith below below₂ ('(' :: cs)).Yields want rest := by
  refine operandWith_parenthesized ?_
  rw [parenthesized, bind_ok (char_ok _ _)]
  have read := optional_yields h
  cases want with
  | none => exact bind_yields (g := fun _ => none) read nofun
  | some r => exact (bind_ok read).trans (bind_ok (punctuation_ok hr))

/-- An expression in parentheses is read where no connective stands at the start. -/
theorem operandWith_expression {rest' : List Char} (hp : Plain (skipTrivia cs))
    (h : (expression below cs).Yields want rest') (hr : skipTrivia rest' = ')' :: rest) :
    (operandWith below below₂ ('(' :: cs)).Yields want rest := by
  have refuses : (group below below₂).Refuses cs :=
    Refuses.of_bind (p := trivia) rfl ((refuses_connective hp).bind _)
  refine operandWith_parenthesized ?_
  rw [parenthesized, bind_ok (char_ok _ _), bind_ok (optional_of_refuses refuses)]
  exact pass_yields (commit_yields h) fun r => bind_ok (punctuation_ok hr)

/-! ### Groups -/

theorem skipTrivia_keyword (op : Connective) (cs : List Char) :
    skipTrivia (op.keyword.toList ++ cs) = op.keyword.toList ++ cs :=
  skipTrivia_ofKeyword? cs (ofKeyword?_keyword op)

section Groups

variable {op : Connective} {word t rest' : List Char} {wants : Option (List Rule)}

/-- Blanks and comments in front of a group are skipped. -/
theorem group_skipTrivia (below below₂ : Option (Grammar Rule)) (cs : List Char) :
    group below below₂ (skipTrivia cs) = group below below₂ cs := by
  rw [group, trivia_bind, trivia_bind, skipTrivia_skipTrivia]

/-- A connective without members. -/
theorem group_nil (hk : Connective.ofKeyword? word = some op) (rest : List Char) :
    group below below₂ (word ++ ')' :: rest) = .ok (.group op []) (')' :: rest) := by
  have close : optional (peek (char ')')) (')' :: rest) = .ok (some ()) (')' :: rest) :=
    optional_of_ok (peek_ok (char_ok _ _))
  rw [group, trivia_bind, skipTrivia_ofKeyword? _ hk, bind_ok (connective_ok hk (ends_close rest)),
    trivia_bind, skipTrivia_close, bind_ok close]
  rfl

/-- The connective of a group, when a member follows. -/
theorem group_member (hk : Connective.ofKeyword? word = some op) (ht : Ends t)
    (h : ∀ u, skipTrivia t ≠ ')' :: u) :
    group below below₂ (word ++ t) =
      (if op = .not then do
        match ← negated below below₂ with
        | .expression r => return r
        | .member r =>
          return .group op (r :: (← many (do spaced ','; expression below)))
      else do
        let first ← expression below
        return .group op (first :: (← many (do spaced ','; expression below))) : Grammar Rule)
          (skipTrivia t) := by
  rw [group, trivia_bind, skipTrivia_ofKeyword? _ hk, bind_ok (connective_ok hk ht), trivia_bind]
  exact bind_ok (optional_of_refuses (refuses_char h).peek)

/-- A connective with members, each but the first after a comma. -/
theorem group_cons (hk : Connective.ofKeyword? word = some op)
    (hop : op ≠ .not) (ht : Ends t) (h : ∀ u, skipTrivia t ≠ ')' :: u)
    (hf : (expression below (skipTrivia t)).Yields want rest)
    (hm : (many (do spaced ','; expression below) rest).Yields wants rest') :
    (group below below₂ (word ++ t)).Yields
      (want.bind fun r => wants.map fun rs => .group op (r :: rs)) rest' := by
  rw [group_member hk ht h, if_neg hop]
  exact bind_yields hf fun r _ => map_yields hm fun _ => rfl

end Groups

/-! ### Chains -/

section Chains

variable {op : Connective} {operand : Grammar Rule} {t rest' : List Char}
  {wants : Option (List Rule)}

/-- Where the connective does not come next, a chain has no links. -/
theorem links_none (h : (keyword op).Refuses (skipTrivia cs)) :
    links op operand cs = .ok [] cs := by
  obtain ⟨e, t, hk, -⟩ := h
  simp [links, linksWithin, hk]

/-- Where the connective does not come next, a first operand stands for itself. -/
theorem chainFrom_none (h : (keyword op).Refuses (skipTrivia cs)) (first : Rule) :
    chainFrom op operand first cs = .ok (first, false) cs := by
  rw [chainFrom, bind_ok (links_none h)]
  rfl

/-- A first operand with others behind it. -/
theorem chainFrom_yields (hl : (links op operand cs).Yields wants rest)
    (hne : ∀ rs, wants = some rs → rs ≠ []) (first : Rule) :
    (chainFrom op operand first cs).Yields
      (wants.map fun rs => (.group op (first :: rs), true)) rest := by
  rw [chainFrom, Option.map_eq_bind]
  refine bind_yields hl fun rs hrs => ?_
  cases rs with
  | nil => exact absurd rfl (hne [] hrs)
  | cons r rs => exact rfl

/-- A lone operand stands for itself. -/
theorem chain_single (ho : (operand cs).Yields want rest)
    (h : (keyword op).Refuses (skipTrivia rest)) : (chain op operand cs).Yields want rest :=
  pass_yields ho fun r => bind_ok (chainFrom_none h r)

/-- A chain yields its first operand and its links. -/
theorem chain_yields (ho : (operand cs).Yields want rest)
    (hl : (links op operand rest).Yields wants rest') (hne : ∀ rs, wants = some rs → rs ≠ []) :
    (chain op operand cs).Yields
      (want.bind fun r => wants.map fun rs => .group op (r :: rs)) rest' := by
  refine bind_yields ho fun r _ => ?_
  have more := map_yields (g := Prod.fst) (chainFrom_yields hl hne r) fun _ => rfl
  rwa [Option.map_map] at more

theorem linksWithin_nil (h : (keyword op).Refuses (skipTrivia cs)) (fuel : Nat) :
    linksWithin op operand fuel cs = .ok [] cs := by
  obtain ⟨e, t, hk, -⟩ := h
  cases fuel with
  | zero => rfl
  | succ fuel => simp [linksWithin, hk]

/-- Behind the connective a link is read, and then the others. -/
theorem linksWithin_cons {fuel : Nat} (hk : skipTrivia cs = op.keyword.toList ++ t) (ht : Ends t)
    (ho : (operand t).Yields want rest)
    (hl : (linksWithin op operand fuel rest).Yields wants rest') :
    (linksWithin op operand (fuel + 1) cs).Yields
      (want.bind fun r => wants.map (r :: ·)) rest' := by
  rw [linksWithin, hk, keyword_ok (ofKeyword?_keyword op) ht]
  exact bind_yields (commit_yields ho) fun r _ => map_yields hl fun _ => rfl

/-- What may follow an operand in a chain of a connective: that connective, or none at all. -/
def Between (op : Connective) (cs : List Char) : Prop :=
  headWord cs = op.keyword.toList ∨ Plain cs

/-- Between operands of one connective no other one comes next. -/
theorem Between.refuses {other : Connective} (h : Between op cs) (hne : other ≠ op) :
    (keyword other).Refuses cs := by
  rcases h with h | h
  · refine refuses_keyword ?_
    rw [h, ofKeyword?_keyword]
    exact fun e => hne (Option.some.inj e).symm
  · exact refuses_keyword_of_none h other

/-- The reader of the operands in a chain of a connective. -/
def operandOf (op : Connective) (unary : Grammar Rule) : Grammar Rule :=
  match op with
  | .and | .not => unary
  | .xor => conjunction unary
  | .or => exclusion unary
  | .implies => disjunction unary

/-- An operand of a chain is a lone operand to the connectives that bind tighter. -/
theorem operandOf_single {unary : Grammar Rule} (h : (unary cs).Yields want rest)
    (hb : Between op (skipTrivia rest)) : (operandOf op unary cs).Yields want rest := by
  cases op with
  | and => exact h
  | not => exact h
  | xor => exact chain_single h (hb.refuses (by decide))
  | or =>
      exact chain_single (chain_single h (hb.refuses (by decide))) (hb.refuses (by decide))
  | implies =>
      exact chain_single (chain_single (chain_single h (hb.refuses (by decide)))
        (hb.refuses (by decide))) (hb.refuses (by decide))

/-- A chain is a lone operand to the connectives that bind less tightly. -/
theorem implication_of_chain (op : Connective) (hop : op ≠ .not) {unary : Grammar Rule}
    (h : (chain op (operandOf op unary) cs).Yields want rest) (hp : Plain (skipTrivia rest)) :
    (implication unary cs).Yields want rest := by
  have none (op : Connective) := refuses_keyword_of_none hp op
  cases op with
  | and => exact chain_single (chain_single (chain_single h (none _)) (none _)) (none _)
  | xor => exact chain_single (chain_single h (none _)) (none _)
  | or => exact chain_single h (none _)
  | implies => exact h
  | not => exact absurd rfl hop

/-- A lone operand is an expression. -/
theorem implication_single {unary : Grammar Rule} (h : (unary cs).Yields want rest)
    (hp : Plain (skipTrivia rest)) : (implication unary cs).Yields want rest :=
  implication_of_chain .and (by decide) (chain_single h (refuses_keyword_of_none hp .and)) hp

/-- After a lone operand an expression goes no further. -/
theorem expressionFrom_none {unary : Grammar Rule} (hp : Plain (skipTrivia cs)) (first : Rule) :
    expressionFrom unary first cs = .ok (first, 0) cs := by
  have none (op : Connective) := refuses_keyword_of_none hp op
  rw [expressionFrom, bind_ok (chainFrom_none (none _) first)]
  exact (bind_ok (chainFrom_none (none _) first)).trans
    ((bind_ok (chainFrom_none (none _) first)).trans
      (bind_ok (chainFrom_none (none _) first)))

/-- After the first operand of a chain an expression goes on to its end. -/
theorem expressionFrom_chain (hop : op ≠ .not) {unary : Grammar Rule}
    (hb : Between op (skipTrivia cs)) (hl : (links op (operandOf op unary) cs).Yields wants rest)
    (hne : ∀ rs, wants = some rs → rs ≠ []) (hp : Plain (skipTrivia rest)) (first : Rule) :
    (expressionFrom unary first cs).Yields
      (wants.map fun rs => (.group op (first :: rs), 1)) rest := by
  have before {other : Connective} (ho : other ≠ op) (operand : Grammar Rule) :
      chainFrom other operand first cs = .ok (first, false) cs :=
    chainFrom_none (hb.refuses ho) first
  have after (other : Connective) (operand : Grammar Rule) (r : Rule) :
      chainFrom other operand r rest = .ok (r, false) rest :=
    chainFrom_none (refuses_keyword_of_none hp other) r
  have here := chainFrom_yields hl hne first
  -- the readers of chains run one after the other, and only that of `op` has something to read
  cases wants with
  | none =>
      cases op with
      | and => exact bind_none_yields here
      | xor => exact bind_ok_yields (before (by decide) _) (bind_none_yields here)
      | or =>
          exact bind_ok_yields (before (by decide) _)
            (bind_ok_yields (before (by decide) _) (bind_none_yields here))
      | implies =>
          exact bind_ok_yields (before (by decide) _) (bind_ok_yields (before (by decide) _)
            (bind_ok_yields (before (by decide) _) (bind_none_yields here)))
      | not => exact absurd rfl hop
  | some rs =>
      have here : chainFrom op (operandOf op unary) first cs =
          .ok (.group op (first :: rs), true) rest := here
      cases op with
      | and =>
          exact (bind_ok here).trans ((bind_ok (after _ _ _)).trans
            ((bind_ok (after _ _ _)).trans (bind_ok (after _ _ _))))
      | xor =>
          exact (bind_ok (before (by decide) _)).trans ((bind_ok here).trans
            ((bind_ok (after _ _ _)).trans (bind_ok (after _ _ _))))
      | or =>
          exact (bind_ok (before (by decide) _)).trans ((bind_ok (before (by decide) _)).trans
            ((bind_ok here).trans (bind_ok (after _ _ _))))
      | implies =>
          exact (bind_ok (before (by decide) _)).trans ((bind_ok (before (by decide) _)).trans
            ((bind_ok (before (by decide) _)).trans (bind_ok here)))
      | not => exact absurd rfl hop

end Chains

/-- An expression is its first operand and the chains around that. -/
theorem implication_eq (unary : Grammar Rule) : implication unary = (do
    let first ← unary
    let (r, _) ← expressionFrom unary first
    return r) := by
  simp only [implication, disjunction, exclusion, conjunction, chain, expressionFrom, bind_assoc,
    pure_bind]

/-! ### Groups under `NOT` -/

section Negations

variable {unary unary₂ : Grammar Rule} {word t after rest' : List Char}
  {wants : Option (List Rule)}

/-- A chain around a negated operand is the chain around the operand, negated one junction further
down if it is one. -/
theorem chainFrom_negateFirst (op : Connective) (unary : Grammar Rule) (k : Nat) (first : Rule) :
    chainFrom op unary (negateFirst k first) = (do
      let (r, b) ← chainFrom op unary first
      return (negateFirst (k + b.toNat) r, b)) := by
  rw [chainFrom, chainFrom, bind_assoc]
  refine bind_congr fun rs => ?_
  cases rs <;> rfl

/-- **The chains around a negated operand are those around the operand, with the operand negated
afterwards.** -/
theorem expressionFrom_negateFirst (unary : Grammar Rule) (first : Rule) :
    expressionFrom unary (.group .not [first]) = (do
      let (r, n) ← expressionFrom unary first
      return (negateFirst n r, n)) := by
  have operand : Rule.group .not [first] = negateFirst 0 first := rfl
  simp only [expressionFrom, operand, chainFrom_negateFirst, bind_assoc, pure_bind, Nat.zero_add,
    Nat.add_assoc]

/-- An expression whose first operand is negated. -/
theorem implication_negation {x q : Rule} {n : Nat} (h : unary cs = .ok (.group .not [x]) t)
    (hq : expressionFrom unary x t = .ok (q, n) rest) :
    implication unary cs = .ok (negateFirst n q) rest := by
  rw [implication_eq, bind_ok h, expressionFrom_negateFirst, bind_assoc, bind_ok hq]
  rfl

/-- Behind `NOT`, an operand with no comma or keyword behind it is negated. -/
theorem negated_single (h : (unary₂ cs).Yields want rest) (hp : Plain (skipTrivia rest))
    (hc : (spaced ',').Refuses rest) : (negated (some unary) (some unary₂) cs).Yields
      (want.map fun r => .expression (.group .not [r])) rest :=
  map_yields h fun r => (bind_ok (expressionFrom_none hp r)).trans
    (bind_ok (optional_of_refuses hc.peek))

/-- Behind `NOT`, an operand with a comma behind it is a member. -/
theorem negated_member (h : (unary₂ cs).Yields want rest) (hp : Plain (skipTrivia rest))
    (hc : spaced ',' rest = .ok () after) :
    (negated (some unary) (some unary₂) cs).Yields (want.map .member) rest :=
  map_yields h fun r => (bind_ok (expressionFrom_none hp r)).trans
    (bind_ok (optional_of_ok (peek_ok hc)))

/-- `NOT` in front of the first operand of a chain. -/
theorem negated_chain {op : Connective} (hop : op ≠ .not) (h : (unary₂ cs).Yields want rest)
    (hb : Between op (skipTrivia rest))
    (hl : (links op (operandOf op unary) rest).Yields wants rest')
    (hne : ∀ rs, wants = some rs → rs ≠ []) (hp : Plain (skipTrivia rest'))
    (hc : (spaced ',').Refuses rest') : (negated (some unary) (some unary₂) cs).Yields
      (want.bind fun r => wants.map fun rs => .expression (.group op (.group .not [r] :: rs)))
      rest' := by
  refine bind_yields h fun r _ => ?_
  have negated : (wants.map fun rs => Negated.expression (.group op (.group .not [r] :: rs))) =
      (wants.map fun rs => (Rule.group op (r :: rs), 1)).map fun x =>
        .expression (negateFirst x.2 x.1) := by rw [Option.map_map]; rfl
  rw [negated]
  exact map_yields (expressionFrom_chain hop hb hl hne hp r) fun ⟨_, _⟩ =>
    bind_ok (optional_of_refuses hc.peek)

/-- `NOT` with an expression that goes on behind its operand. -/
theorem group_not_expression (hk : Connective.ofKeyword? word = some .not) (ht : Ends t)
    (h : ∀ u, skipTrivia t ≠ ')' :: u)
    (hg : (negated below below₂ (skipTrivia t)).Yields (want.map .expression) rest) :
    (group below below₂ (word ++ t)).Yields want rest := by
  rw [group_member hk ht h, if_pos rfl]
  cases want with
  | none => exact bind_none_yields hg
  | some r => exact (bind_ok hg).trans rfl

/-- `NOT` in front of several members. -/
theorem group_not_cons (hk : Connective.ofKeyword? word = some .not) (ht : Ends t)
    (h : ∀ u, skipTrivia t ≠ ')' :: u) (hf : (unary₂ (skipTrivia t)).Yields want rest)
    (hp : Plain (skipTrivia rest)) (hc : spaced ',' rest = .ok () after)
    (hm : (many (do spaced ','; expression (some unary)) rest).Yields wants rest') :
    (group (some unary) (some unary₂) (word ++ t)).Yields
      (want.bind fun r => wants.map fun rs => .group .not (r :: rs)) rest' := by
  have several : (negated (some unary) (some unary₂) (skipTrivia t)).Yields
      (want.map .member) rest := negated_member hf hp hc
  rw [group_member hk ht h, if_pos rfl]
  cases want with
  | none => exact bind_none_yields several
  | some r => exact bind_ok_yields several (map_yields hm fun _ => rfl)

end Negations

end Operands

/-! ### Levels -/

/-- The reader of operands one level below. -/
def levelBelow : Nat → Option (Grammar Rule)
  | 0 => none
  | n + 1 => some (unary n)

/-- An operand is read in terms of the two levels below. -/
theorem unary_eq (n : Nat) : unary n = operandWith (levelBelow n) (levelBelow (n - 1)) := by
  funext cs
  match n with
  | 0 => rfl
  | 1 => rfl
  | n + 2 => rfl

/-- An expression is an implication of operands one level down, behind blanks and comments. -/
theorem expression_some (unary : Grammar Rule) (cs : List Char) :
    expression (some unary) cs = implication unary (skipTrivia cs) := rfl

/-- An expression skips what stands in front of it. -/
theorem expression_eq_ok_congr {below : Option (Grammar Rule)} {cs ds rest : List Char} {r : Rule}
    (h : skipTrivia ds = skipTrivia cs) (hr : expression below cs = .ok r rest) :
    expression below ds = .ok r rest := by
  cases below with
  | none => cases hr
  | some unary => rwa [expression_some, h, ← expression_some]

end Rulebook.Dsl
