import Rulebook.Dsl.Reader
import Rulebook.Proofs.Dsl.Call
import Rulebook.Proofs.Dsl.Check
import Rulebook.Proofs.Dsl.Cut
import Rulebook.Proofs.Dsl.Expression
import Rulebook.Proofs.KeyMap

/-!
# Rulebook — Proofs — Dsl — Accepted

What the grammar accepts, production by production.  Each one leads from cut to cut of the text and
leaves no more parentheses open than it found, so that a text is accepted in whole pieces with every
parenthesis closed.  What is read can be written but for numbers: the names in a rule are read as
names and the name of a plain function is none of the reserved ones, so that the check in front of
the printer fails for a number beyond the range of floating-point numbers or not at all, whatever
the rule nests.  In a tame text there is no such number.

* `keeps_unary`: operands, by induction on the levels left.
* `cut_of_readStructure`: an accepted text is cut to its end.
* `clears_of_parse`, `check_of_parse`: whole texts, with the records that comments set.
-/

namespace Rulebook

open Dsl

namespace Rule

/-! ### Records -/

/-- A rule's own record is none of the rule without its records. -/
theorem bare_withNote (n : Option Metadata) (r : Rule) : (r.withNote n).bare = r.bare := by
  cases r <;> rfl

/-- Updates of records change no rule without its records. -/
theorem bareAll_updateAt {f : Rule → Option Rule} (hf : ∀ r r', f r = some r' → r'.bare = r.bare) :
    ∀ {rs rs' : List Rule} {i : Nat}, updateAt f rs i = some rs' → bareAll rs' = bareAll rs
  | [], _, _, h => nomatch h
  | r :: rs, _, 0, h => by
      obtain ⟨r', hr, rfl⟩ := Option.map_eq_some_iff.mp h
      rw [bareAll, bareAll, hf r r' hr]
  | r :: rs, _, i + 1, h => by
      obtain ⟨rs', hrs, rfl⟩ := Option.map_eq_some_iff.mp h
      rw [bareAll, bareAll, bareAll_updateAt hf hrs]

/-- Setting a record changes nothing but records. -/
theorem bare_annotate {n : Option Metadata} : ∀ {path : List Nat} {r r' : Rule},
    annotate n path r = some r' → r'.bare = r.bare
  | [], r, _, h => by
      cases h
      exact bare_withNote n r
  | i :: path, .scope s body note, _, h => by
      rw [annotate] at h
      split at h
      · obtain ⟨b, hb, rfl⟩ := Option.map_eq_some_iff.mp h
        rw [bare, bare, bare_annotate hb]
      · cases h
  | i :: path, .junction j members note, _, h => by
      obtain ⟨ms, hms, rfl⟩ := Option.map_eq_some_iff.mp h
      rw [bare, bare, bareAll_updateAt (fun _ _ => bare_annotate) hms]
  | _ :: _, .atom _ _, _, h => nomatch h

mutual

/-- Records make no difference to what can be written. -/
theorem check_bare : (r : Rule) → r.bare.check = r.check
  | .atom _ _ => rfl
  | .scope s body _ => by rw [bare, check, check, check_bare body]
  | .junction _ members _ => by rw [bare, check, check, checkAll_bareAll members]

/-- Rules are checked without regard to their records. -/
theorem checkAll_bareAll : (rs : List Rule) → checkAll (bareAll rs) = checkAll rs
  | [] => rfl
  | r :: rs => by rw [bareAll, checkAll, checkAll, check_bare r, checkAll_bareAll rs]

end

/-- Rules that differ in records only pass the same checks. -/
theorem check_eq_of_bare_eq {r q : Rule} (e : r.bare = q.bare) : r.check = q.check := by
  rw [← check_bare, e, check_bare]

end Rule

namespace Dsl

open Grammar

/-- What keeps the rule from being written is a number in the text that it is read from, if
anything. -/
abbrev PassesIn (text : List Char) (r : Rule) : Prop := Clears text r.check

variable {text : List Char} {n : Nat} {rule p : Grammar Rule}
variable {below below₂ : Option (Grammar Rule)}

/-- Rules that pass the check do so one behind the other. -/
theorem clears_checkAll {rs : List Rule} (h : ∀ r ∈ rs, PassesIn text r) :
    Clears text (Rule.checkAll rs) := by
  induction rs with
  | nil => exact .ok
  | cons r rs ih =>
      obtain ⟨hr, hrs⟩ := List.forall_mem_cons.mp h
      exact hr.andThen (ih hrs)

/-- A group passes the check if its members do. -/
theorem passesIn_group {op : Connective} {rs : List Rule} (h : ∀ r ∈ rs, PassesIn text r) :
    PassesIn text (.group op rs) := clears_checkAll h

/-- A negation at the start of a chain adds nothing to check. -/
theorem check_negateFirst (levels : Nat) (r : Rule) : (negateFirst levels r).check = r.check := by
  have single (r : Rule) : (Rule.group .not [r]).check = r.check := by
    show (do r.check; Rule.checkAll []) = _
    cases r.check <;> rfl
  induction levels generalizing r with
  | zero => exact single r
  | succ levels ih =>
      match r with
      | .atom _ _ => rfl
      | .scope _ _ _ => rfl
      | .junction _ [] _ => rfl
      | .junction j (m :: ms) note =>
          show (do (negateFirst levels m).check; Rule.checkAll ms) = _
          rw [ih]
          rfl

/-- A `NOT` in front of the first operand changes nothing about the check. -/
theorem passesIn_negateFirst {r : Rule} (h : PassesIn text r) (levels : Nat) :
    PassesIn text (negateFirst levels r) := by
  rwa [PassesIn, check_negateFirst]

/-! ### Calls -/

/-- The name of a plain function is none of the reserved ones. -/
theorem isReservedCall_of_plain {name : String} (h : callForm name = .plain) :
    isReservedCall name = false := by
  have reserved : ∀ n ∈ reservedCalls, callForm n ≠ .plain := by decide
  cases e : isReservedCall name with
  | false => rfl
  | true => exact absurd h (reserved name (List.contains_iff_mem.mp e))

/-- An argument of a function leads from cut to cut, and passes the check. -/
theorem keeps_functionArgument :
    Keeps (Cut text n) functionArgument
      fun a => Clears text (a.value.checkOperand a.kind) := by
  have literal : Keeps (Cut text n)
      (do let v ← literalValue; return ⟨v, .literal⟩ : Grammar Argument)
      fun a => Clears text (a.value.checkOperand a.kind) :=
    keeps_literalValue.bind fun _ hv => .pure hv
  have field : Keeps (Cut text n)
      (do let field ← fieldName; return ⟨.string field, .fieldReference⟩ : Grammar Argument)
      fun a => Clears text (a.value.checkOperand a.kind) :=
    keeps_fieldName.bind fun _ hs => .pure (clears_reference hs)
  exact (literal.orElse field).expecting "argument"

/-- A parameter leads from cut to cut, and passes the check. -/
theorem keeps_parameter :
    Keeps (Cut text n) parameter
      fun e => isName e.1 = true ∧ Clears text e.2.check :=
  (keeps_argument (keeps_nameString.expecting "parameter name")).bind fun _ hk =>
    keeps_trivia.bind fun _ _ =>
      ((keeps_char (by decide)).commit.expectingChar '=').bind fun _ _ =>
        (keeps_argument keeps_literalValue).bind fun _ hv => .pure ⟨hk, hv⟩

theorem keeps_stringArgument (what : String) :
    Keeps (Cut text n) (stringArgument what) fun _ => True :=
  keeps_argument (keeps_stringLiteral.expecting what)

/-- The rules of a quota lead from cut to cut, and pass the check. -/
theorem keeps_ruleList (hr : Keeps (Cut text n) rule (PassesIn text)) :
    Keeps (Cut text n) (ruleList rule) fun rs => ∀ r ∈ rs, PassesIn text r :=
  keeps_trivia.bind fun _ _ =>
    ((keeps_char (by decide)).commit.expectingChar '[').bind fun _ _ =>
      (hr.separated (keeps_spaced (by decide))).bind fun _ hrs =>
        (keeps_punctuation (by decide)).bind fun _ _ => .pure hrs

/-- The arguments of a call, form by form. -/
theorem keeps_callArguments (hr : Keeps (Cut text n) rule (PassesIn text)) {name : String}
    (hn : isName name = true) : ∀ {form : CallForm}, callForm name = form →
    Keeps (Cut text n) (callArguments rule name form) (PassesIn text) := by
  have field : Keeps (Cut text n) (argument fieldName) fun s => isName s = true :=
    keeps_argument keeps_fieldName
  have comma : Keeps (Cut text n) (punctuation ',') fun _ => True := keeps_punctuation (by decide)
  have named {role : NameRole} {s : String} (hs : isName s = true) :
      Clears text (checkName role s) := .of_eq_ok (checkName_ok_iff.mpr hs)
  intro form hform
  cases form with
  | requirement _ | forEach | guarded _ =>
      exact field.bind fun _ hf => comma.bind fun _ _ => (keeps_argument hr).bind fun _ hb =>
        .pure ((named hf).andThen hb)
  | withDefault =>
      exact field.bind fun _ hf => comma.bind fun _ _ =>
        (keeps_argument keeps_literalValue).bind fun _ hv => comma.bind fun _ _ =>
          (keeps_argument hr).bind fun _ hb =>
            .pure (((named hf).andThen hv).andThen hb)
  | uniqueBy =>
      exact field.bind fun _ hf => comma.bind fun _ _ =>
        (keeps_stringArgument "key string").bind fun _ _ => .pure (named hf)
  | length bound =>
      exact field.bind fun _ hf => comma.bind fun _ _ =>
        (keeps_argument (keeps_naturalBelow _)).bind fun _ _ => .pure (named hf)
  | quota kind =>
      exact (keeps_argument (keeps_naturalBelow _)).bind fun _ _ => comma.bind fun _ _ =>
        (keeps_ruleList hr).bind fun _ hrs => .pure (clears_checkAll hrs)
  | contextual =>
      exact (keeps_stringArgument "template string").bind fun _ _ => .pure .ok
  | expression =>
      exact (keeps_stringArgument "expression string").bind fun _ _ => .pure .ok
  | custom =>
      exact (keeps_stringArgument "custom kind").bind fun _ _ => comma.bind fun _ _ =>
        (keeps_argument keeps_payload).bind fun _ _ => .pure .ok
  | template =>
      refine (keeps_stringArgument "template id").bind fun _ _ =>
        (((keeps_spaced (by decide)).bind fun _ _ => keeps_parameter).many).bind fun _ hps =>
          .pure (.forM fun e he => ?_)
      obtain ⟨hk, hv⟩ := hps e (KeyMap.mem_of_mem_ofList e he)
      exact (named hk).andThen hv
  | plain =>
      refine keeps_trivia.bind fun _ _ =>
        ((keeps_trivia.bind fun _ _ => keeps_functionArgument).separated
          (keeps_spaced (by decide))).bind fun _ has => .pure ?_
      have call : (isName name && !isReservedCall name) = true := by
        rw [hn, isReservedCall_of_plain hform]
        rfl
      rw [PassesIn, Rule.check, Atom.check, if_pos call]
      exact Clears.ok.andThen (.forM has)

/-- The body of a call closes the parenthesis in front of it. -/
theorem takes_callBody (hr : Keeps (Cut text (n + 1)) rule (PassesIn text)) {name : String}
    (hn : isName name = true) :
    Takes (Cut text (n + 1)) (Cut text n) (callBody rule name) (PassesIn text) :=
  (keeps_callArguments hr hn rfl).bind fun _ h => takes_closing.bind fun _ _ => .pure h

/-! ### Chains -/

theorem keeps_linksWithin (op : Connective) (hp : Keeps (Cut text n) p (PassesIn text))
    (fuel : Nat) :
    Keeps (Cut text n) (linksWithin op p fuel) fun rs => ∀ r ∈ rs, PassesIn text r := by
  induction fuel with
  | zero =>
      intro cs rs rest h he
      cases he
      exact ⟨h, List.forall_mem_nil _⟩
  | succ fuel ih =>
      intro cs rs rest h he
      rw [linksWithin] at he
      cases hk : keyword op (skipTrivia cs) with
      | fail f r =>
          rw [hk] at he
          cases he
          exact ⟨h, List.forall_mem_nil _⟩
      | ok u behind =>
          rw [hk] at he
          have hb := (keeps_keyword op _ _ _ h.trivia hk).1
          have further : Keeps (Cut text n) (do
              let r ← commit p
              let rs ← linksWithin op p fuel
              return r :: rs : Grammar (List Rule)) fun rs => ∀ r ∈ rs, PassesIn text r :=
            hp.commit.bind fun _ hr => ih.bind fun _ hrs =>
              .pure (List.forall_mem_cons.mpr ⟨hr, hrs⟩)
          exact further behind rs rest hb he

/-- A chain from its first member on leads from cut to cut, and passes the check. -/
theorem keeps_chainFrom (op : Connective) (hp : Keeps (Cut text n) p (PassesIn text))
    {first : Rule} (hf : PassesIn text first) :
    Keeps (Cut text n) (chainFrom op p first) fun q => PassesIn text q.1 := by
  have links : Keeps (Cut text n) (links op p) fun rs => ∀ r ∈ rs, PassesIn text r := fun cs =>
    keeps_linksWithin op hp (cs.length + 1) cs
  refine links.bind fun rs hrs => ?_
  cases rs with
  | nil => exact .pure hf
  | cons r rs => exact .pure (passesIn_group (List.forall_mem_cons.mpr ⟨hf, hrs⟩))

/-- A chain leads from cut to cut, and passes the check. -/
theorem keeps_chain (op : Connective) (hp : Keeps (Cut text n) p (PassesIn text)) :
    Keeps (Cut text n) (chain op p) (PassesIn text) :=
  hp.bind fun _ hf => (keeps_chainFrom op hp hf).bind fun _ hr => .pure hr

section

variable (hp : Keeps (Cut text n) p (PassesIn text))
include hp

/-- A conjunction leads from cut to cut, and passes the check. -/
theorem keeps_conjunction : Keeps (Cut text n) (conjunction p) (PassesIn text) :=
  keeps_chain .and hp

theorem keeps_exclusion : Keeps (Cut text n) (exclusion p) (PassesIn text) :=
  keeps_chain .xor (keeps_conjunction hp)

theorem keeps_disjunction : Keeps (Cut text n) (disjunction p) (PassesIn text) :=
  keeps_chain .or (keeps_exclusion hp)

/-- An implication leads from cut to cut, and passes the check. -/
theorem keeps_implication : Keeps (Cut text n) (implication p) (PassesIn text) :=
  keeps_chain .implies (keeps_disjunction hp)

/-- An expression from its first operand on leads from cut to cut, and passes the check. -/
theorem keeps_expressionFrom {first : Rule} (hf : PassesIn text first) :
    Keeps (Cut text n) (expressionFrom p first) fun q => PassesIn text q.1 :=
  (keeps_chainFrom .and hp hf).bind fun _ ha =>
    (keeps_chainFrom .xor (keeps_conjunction hp) ha).bind fun _ hb =>
      (keeps_chainFrom .or (keeps_exclusion hp) hb).bind fun _ hc =>
        (keeps_chainFrom .implies (keeps_disjunction hp) hc).bind fun _ hd => .pure hd

end

/-! ### Primaries -/

section

variable (hb : ∀ u ∈ below, ∀ n, Keeps (Cut text n) u (PassesIn text))
variable (hb₂ : ∀ u ∈ below₂, ∀ n, Keeps (Cut text n) u (PassesIn text))

/-- A reader one level down leads from cut to cut if what the level allows does. -/
theorem keeps_nested {α : Type} {Q : α → Prop} {p : Grammar Rule → Grammar α}
    (hb : ∀ u ∈ below, ∀ n, Keeps (Cut text n) u (PassesIn text))
    (hp : ∀ u, Keeps (Cut text n) u (PassesIn text) → Keeps (Cut text n) (p u) Q) :
    Keeps (Cut text n) (nested below p) Q := by
  cases below with
  | none => exact .abort _
  | some u => exact hp u (hb u rfl n)

include hb in
/-- An expression leads from cut to cut, and passes the check. -/
theorem keeps_expression : Keeps (Cut text n) (expression below) (PassesIn text) :=
  keeps_nested hb fun _ hu => keeps_trivia.bind fun _ _ => keeps_implication hu

/-- What is behind a field leads from cut to cut, and passes the check. -/
theorem keeps_conditionRest {field : String} (hf : isName field = true) :
    Keeps (Cut text n) (conditionRest field) (PassesIn text) :=
  keeps_trivia.bind fun _ _ =>
    (keeps_comparison.commit.expecting "comparison operator").bind fun _ _ =>
      keeps_trivia.bind fun _ _ => keeps_operand.commit.bind fun _ hv =>
        .pure ((Clears.of_eq_ok (checkName_ok_iff.mpr hf)).andThen hv)

/-- What follows `NOT` passes the check, as an expression or as a member. -/
def Negated.PassesIn (text : List Char) : Negated → Prop
  | .expression r => Dsl.PassesIn text r
  | .member r => Dsl.PassesIn text r

include hb hb₂ in
theorem keeps_negated : Keeps (Cut text n) (negated below below₂) (Negated.PassesIn text) := by
  refine keeps_nested hb fun u hu => (keeps_nested hb₂ fun _ h => h).bind fun first hf =>
    (keeps_expressionFrom hu hf).bind fun p hr => ?_
  refine (Takes.optional (.peek _)).bind fun next _ => ?_
  cases next with
  | some _ => exact .pure hr
  | none => exact .pure (passesIn_negateFirst hr p.2)

include hb hb₂ in
/-- A group leads from cut to cut, and passes the check. -/
theorem keeps_group : Keeps (Cut text n) (group below below₂) (PassesIn text) := by
  have more : Keeps (Cut text n) (many (do spaced ','; expression below))
      fun rs => ∀ r ∈ rs, PassesIn text r :=
    ((keeps_spaced (by decide)).bind fun _ _ => keeps_expression hb).many
  refine keeps_trivia.bind fun _ _ => keeps_connective.bind fun op _ => keeps_trivia.bind fun _ _ =>
    (Takes.optional (.peek _)).bind fun next _ => ?_
  cases next with
  | some _ => exact .pure (passesIn_group (List.forall_mem_nil _))
  | none =>
      refine .ite ((keeps_negated hb hb₂).bind fun n hn => ?_) ?_
      · cases n with
        | expression r => exact .pure hn
        | member r =>
            exact more.bind fun _ hrs => .pure
              (passesIn_group (List.forall_mem_cons.mpr ⟨hn, hrs⟩))
      · exact (keeps_expression hb).bind fun _ hf => more.bind fun _ hrs => .pure
          (passesIn_group (List.forall_mem_cons.mpr ⟨hf, hrs⟩))

include hb hb₂ in
/-- The parenthesis that is opened is closed. -/
theorem keeps_parenthesized :
    Keeps (Cut text n) (parenthesized below below₂) (PassesIn text) := by
  refine takes_opening.bind fun _ _ => (keeps_group hb hb₂).optional.bind fun g hg => ?_
  have close {r : Rule} (hr : PassesIn text r) :
      Takes (Cut text (n + 1)) (Cut text n) (do punctuation ')'; return r : Grammar Rule)
        (PassesIn text) :=
    takes_closing.bind fun _ _ => .pure hr
  cases g with
  | some r => exact (Takes.pure (hg r rfl)).bind fun _ hr => close hr
  | none => exact (keeps_expression hb).commit.bind fun _ hr => close hr

include hb in
/-- What starts with a name leads from cut to cut, and passes the check. -/
theorem keeps_named : Keeps (Cut text n) (named below) (PassesIn text) :=
  keeps_nameString.bind fun _ hn =>
    (keeps_trivia.bind fun _ _ => takes_opening).optional_bind
      (fun _ _ => takes_callBody (keeps_expression hb) hn) (keeps_conditionRest hn)

include hb hb₂ in
/-- A primary rule leads from cut to cut, and passes the check. -/
theorem keeps_primary : Keeps (Cut text n) (primary below below₂) (PassesIn text) :=
  keeps_trivia.bind fun _ _ =>
    ((keeps_parenthesized hb hb₂).orElse
      ((keeps_fieldReference.bind fun _ hf => keeps_conditionRest hf).orElse
        (keeps_named hb))).expecting "expression"

include hb hb₂ in
/-- An operand leads from cut to cut, and passes the check. -/
theorem keeps_operandWith : Keeps (Cut text n) (operandWith below below₂) (PassesIn text) := by
  refine keeps_trivia.bind fun _ _ => (keeps_keyword .not).optional.bind fun next _ => ?_
  cases next with
  | some _ =>
      exact (keeps_nested hb fun _ hu => hu.commit).bind fun _ hr =>
        .pure (passesIn_group (by simpa using hr))
  | none => exact keeps_primary hb hb₂

end

/-! ### Whole texts -/

/-- **An operand leads from cut to cut**, and numbers apart it can be written, whatever it nests. -/
theorem keeps_unary (levels n : Nat) : Keeps (Cut text n) (unary levels) (PassesIn text) := by
  induction levels using Nat.strong_induction_on generalizing n with
  | _ levels ih =>
      have lower {m : Nat} (hm : m ≤ levels) :
          ∀ u ∈ levelBelow m, ∀ n, Keeps (Cut text n) u (PassesIn text) := by
        intro u hu n
        cases m with
        | zero => cases hu
        | succ m =>
            cases hu
            exact ih m hm n
      rw [unary_eq]
      exact keeps_operandWith (lower (Nat.le_refl levels)) (lower (Nat.sub_le levels 1))

/-- A document leads from cut to cut, and its rule passes the check. -/
theorem keeps_document : Keeps (Cut text n) document fun o => ∀ r ∈ o, PassesIn text r := by
  refine keeps_trivia.bind fun _ _ => ?_
  intro cs o rest h hp
  cases cs with
  | nil =>
      cases hp
      exact ⟨h, fun _ hr => nomatch hr⟩
  | cons c cs =>
      have whole : Keeps (Cut text n) (do
          let r ← topExpression
          trivia
          return some r : Grammar (Option Rule)) fun o => ∀ r ∈ o, PassesIn text r :=
        (keeps_expression fun _ hu => Option.mem_some.mp hu ▸ keeps_unary _).bind fun _ hr =>
          keeps_trivia.bind fun _ _ => .pure (by simpa using hr)
      exact whole _ _ _ h hp

/-- The grammar has read an accepted text to its end. -/
theorem document_of_readStructure {text : List Char} {o : Option Rule}
    (h : readStructure text = .ok o) : document text = .ok o [] := by
  rw [readStructure] at h
  cases hd : document text with
  | fail f rest => rw [hd] at h; cases h
  | ok o rest =>
      rw [hd] at h
      cases rest with
      | cons c rest => cases h
      | nil =>
          cases h
          rfl

/-- **An accepted text is cut to its end**, with no parenthesis open. -/
theorem cut_of_readStructure {text : List Char} {o : Option Rule}
    (h : readStructure text = .ok o) : Cut text 0 [] :=
  (keeps_document text o [] .whole (document_of_readStructure h)).1

/-- A rule that is read passes the check but for numbers of its text. -/
theorem passesIn_of_readStructure {text : List Char} {r : Rule}
    (h : readStructure text = .ok (some r)) : PassesIn text r :=
  (keeps_document text (some r) [] .whole (document_of_readStructure h)).2 r rfl

/-- A comment changes no rule without its records. -/
theorem bare_applyComment {text : List Char} {r r' : Rule} {c : Comment}
    (h : applyComment text r c = .ok r') : r'.bare = r.bare := by
  rw [applyComment] at h
  cases hc : c.record? with
  | none =>
      rw [hc] at h
      cases h
      rfl
  | some body =>
      rw [hc] at h
      dsimp only at h
      cases hb : PathRecord.read? body with
      | none => rw [hb] at h; cases h
      | some record =>
          rw [hb] at h
          dsimp only at h
          cases ha : r.annotate (some record.metadata) record.path with
          | none => rw [ha] at h; cases h
          | some q =>
              rw [ha] at h
              cases h
              exact Rule.bare_annotate ha

/-- Comments change no rule without its records. -/
theorem bare_foldlM {text : List Char} {found : List Comment} {r r' : Rule}
    (h : found.foldlM (applyComment text) r = .ok r') : r'.bare = r.bare := by
  induction found generalizing r with
  | nil =>
      cases h
      rfl
  | cons c found ih =>
      rw [List.foldlM_cons] at h
      obtain ⟨q, hq, h⟩ := bind_eq_ok_iff.mp h
      exact (ih h).trans (bare_applyComment hq)

/-- What a text is read as is what the grammar reads, records apart. -/
theorem readStructure_of_parse {text : String} {r : Rule} (h : parse text = .ok (some r)) :
    ∃ q, readStructure text.toList = .ok (some q) ∧ r.bare = q.bare := by
  obtain ⟨o, hs, h⟩ := bind_eq_ok_iff.mp h
  cases o with
  | none => cases h
  | some q =>
      obtain ⟨q', hq, h⟩ := bind_eq_ok_iff.mp h
      cases h
      exact ⟨q, hs, bare_foldlM hq⟩

/-- **What keeps a rule that was read from being written is a number** that is not finite. -/
theorem clears_of_parse {text : String} {r : Rule} (h : parse text = .ok (some r)) :
    Clears text.toList r.check := by
  obtain ⟨q, hs, e⟩ := readStructure_of_parse h
  rw [Rule.check_eq_of_bare_eq e]
  exact passesIn_of_readStructure hs

/-- **A rule that is read from a tame text can be written.** -/
theorem check_of_parse {text : String} {r : Rule} (ht : Tame text.toList)
    (h : parse text = .ok (some r)) : r.check = .ok () := (clears_of_parse h).eq_ok ht

end Dsl

end Rulebook
