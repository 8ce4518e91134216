import Rulebook.Proofs.Dsl.Accepted
import Rulebook.Proofs.RoundTrip.Drift
import Rulebook.Proofs.Rule.Names

/-!
# Rulebook — Proofs — Dsl — Produced

What a rule is like that the grammar has read.  It carries no record, the names in its heads are
names, and it has a bounded number of levels: an operand with `k` levels of text left below it has
at most `5 * k + 1` levels, an expression at most `5 * k`.  Of the five that a level of text can
add, four are the chains around an operand, one inside the other, and one is a group or a call.

The budget is spent by `NOT`, by expressions and at the start of groups under `NOT`; chains, groups
and calls add levels to the rule without spending any.

* `gives_unary`: operands, by induction on the levels left.
* `produced_of_readStructure`: whole texts.
* `named_of_parse`, `depth_le_of_parse`: the same with the records that comments set.
-/

namespace Rulebook

open Dsl

namespace Rule

theorem head_bare (r : Rule) : r.bare.head = r.head := r.head_kept false

/-- Rules that differ in records only have the same heads. -/
theorem named_of_bare_eq {r q : Rule} (e : r.bare = q.bare) (h : ∀ p ∈ q.preorder, p.head.Named) :
    ∀ p ∈ r.preorder, p.head.Named := by
  have heads (r : Rule) : r.bare.preorder.map head = r.preorder.map head := by
    rw [preorder_bare, List.map_map]
    exact List.map_congr_left fun p _ => p.head_bare
  have same : r.preorder.map head = q.preorder.map head := by rw [← heads, e, heads]
  rw [← List.forall_mem_map (f := head) (P := Head.Named)] at h ⊢
  rwa [same]

/-- Rules that differ in records only have the same number of levels. -/
theorem depth_eq_of_bare_eq {r q : Rule} (e : r.bare = q.bare) : r.depth = q.depth := by
  rw [← r.extent_bare.1, e, q.extent_bare.1]

end Rule

namespace Dsl

open Grammar

/-- A rule without records, with named heads and at most `n` levels. -/
structure Produced (n : Nat) (r : Rule) : Prop where
  bare : r.bare = r
  named : ∀ q ∈ r.preorder, q.head.Named
  depth : r.depth ≤ n

namespace Produced

variable {m n : Nat} {r : Rule} {rs : List Rule}

/-- More levels may be allowed. -/
theorem mono (h : Produced m r) (hmn : m ≤ n) : Produced n r :=
  ⟨h.bare, h.named, Nat.le_trans h.depth hmn⟩

/-- An atom has one level. -/
theorem atom {a : Atom} (ha : (Head.atom a).Named) : Produced (n + 1) (.atom a none) :=
  ⟨rfl, List.forall_mem_singleton.mpr ha, Nat.le_add_left 1 n⟩

/-- A scope adds a level. -/
theorem scope {s : Scope} (hs : (Head.scope s).Named) (h : Produced n r) :
    Produced (n + 1) (.scope s r none) := by
  refine ⟨congrArg (Rule.scope s · none) h.bare, List.forall_mem_cons.mpr ⟨hs, h.named⟩, ?_⟩
  rw [Rule.depth, Nat.add_comm]
  exact Nat.succ_le_succ h.depth

/-- A junction adds a level. -/
theorem junction {j : Junction} (h : ∀ r ∈ rs, Produced n r) :
    Produced (n + 1) (.junction j rs none) := by
  constructor
  · have unchanged : rs.map Rule.bare = rs :=
      (List.map_congr_left fun r hr => (h r hr).bare).trans (List.map_id rs)
    rw [Rule.bare, Rule.bareAll_eq_map, unchanged]
  · exact Rule.forall_mem_preorder_iff.mpr
      ⟨Head.named_junction j, fun r hr => (h r hr).named⟩
  · rw [Rule.depth, Nat.add_comm]
    exact Nat.succ_le_succ (Rule.depthAll_le_iff.mpr fun r hr => (h r hr).depth)

end Produced

/-! ### Readers -/

/-- What is read has the property `Q`, wherever in a text. -/
abbrev Gives {α : Type} (p : Grammar α) (Q : α → Prop) : Prop := Keeps (fun _ => True) p Q

variable {α : Type} {n : Nat} {rule p : Grammar Rule} {below below₂ : Option (Grammar Rule)}

theorem gives (p : Grammar α) : Gives p fun _ => True := fun _ _ _ _ _ => ⟨trivial, trivial⟩

theorem gives_nameString : Gives nameString fun s => isName s = true :=
  fun _ _ _ _ h => ⟨trivial, (nameString_eq_ok h).2⟩

/-- A reference gives a name. -/
theorem gives_fieldReference : Gives fieldReference fun s => isName s = true :=
  (gives _).bind fun _ _ => (gives_nameString.commit.expecting "field name").bind fun _ hs =>
    (gives _).bind fun _ _ => .pure hs

theorem gives_fieldName : Gives fieldName fun s => isName s = true :=
  (gives_fieldReference.orElse gives_nameString).expecting "field name"

/-- An argument gives what it is an argument of. -/
theorem gives_argument {p : Grammar α} {Q : α → Prop} (h : Gives p Q) : Gives (argument p) Q :=
  (gives _).bind fun _ _ => h.commit

/-- A value that stands for a field is a name. -/
abbrev Referring (v : Literal) (kind : OperandKind) : Prop :=
  kind = .fieldReference → ∃ s, v = .string s ∧ isName s = true

/-- An operand that refers to a field gives its name. -/
theorem gives_operand : Gives operand fun v => Referring v.1 v.2 := by
  have field : Gives
      (do let field ← fieldReference; return (.string field, .fieldReference) :
        Grammar (Literal × OperandKind)) fun v => Referring v.1 v.2 :=
    gives_fieldReference.bind fun s hs => .pure fun _ => ⟨s, rfl, hs⟩
  have literal : Gives (do let v ← literalValue; return (v, .literal) :
      Grammar (Literal × OperandKind)) fun v => Referring v.1 v.2 :=
    (gives _).bind fun _ _ => .pure nofun
  exact (field.orElse literal).expecting "value"

/-- An argument of a function that refers to a field gives its name. -/
theorem gives_functionArgument : Gives functionArgument fun a => Referring a.value a.kind := by
  have literal : Gives (do let v ← literalValue; return ⟨v, .literal⟩ : Grammar Argument)
      fun a => Referring a.value a.kind :=
    (gives _).bind fun _ _ => .pure nofun
  have field : Gives (do let field ← fieldName; return ⟨.string field, .fieldReference⟩ :
      Grammar Argument) fun a => Referring a.value a.kind :=
    gives_fieldName.bind fun s hs => .pure fun _ => ⟨s, rfl, hs⟩
  exact (literal.orElse field).expecting "argument"

/-- A parameter gives a name. -/
theorem gives_parameter : Gives parameter fun e => isName e.1 = true :=
  (gives_argument (gives_nameString.expecting "parameter name")).bind fun _ hk =>
    (gives _).bind fun _ _ => (gives _).bind fun _ _ => (gives _).bind fun _ _ => .pure hk

/-- The rules of a quota have the levels that rules have. -/
theorem gives_ruleList (hr : Gives rule (Produced n)) :
    Gives (ruleList rule) fun rs => ∀ r ∈ rs, Produced n r :=
  (gives _).bind fun _ _ => (gives _).bind fun _ _ =>
    (hr.separated (gives _)).bind fun _ hrs => (gives _).bind fun _ _ => .pure hrs

/-! ### Calls -/

/-- The arguments of a call, form by form. -/
theorem gives_callArguments (hr : Gives rule (Produced n)) {name : String}
    (hn : isName name = true) : ∀ {form : CallForm}, callForm name = form →
    Gives (callArguments rule name form) (Produced (n + 1)) := by
  have field : Gives (argument fieldName) fun s => isName s = true :=
    gives_argument gives_fieldName
  have body {s : Scope} {f : String} (hf : isName f = true) (e : (Head.scope s).fields = [f]) :
      Gives (do let body ← argument rule; return .scope s body none : Grammar Rule)
        (Produced (n + 1)) :=
    (gives_argument hr).bind fun _ hb => .pure (.scope (Head.named_of_field hf e rfl rfl rfl) hb)
  intro form hform
  cases form with
  | requirement kind => exact field.bind fun _ hf => (gives _).bind fun _ _ => body hf rfl
  | forEach => exact field.bind fun _ hf => (gives _).bind fun _ _ => body hf rfl
  | guarded guard => exact field.bind fun _ hf => (gives _).bind fun _ _ => body hf rfl
  | withDefault =>
      exact field.bind fun _ hf => (gives _).bind fun _ _ => (gives _).bind fun _ _ =>
        (gives _).bind fun _ _ => body hf rfl
  | uniqueBy =>
      exact field.bind fun _ hf => (gives _).bind fun _ _ => (gives _).bind fun _ _ =>
        .pure (.atom (Head.named_of_field hf rfl rfl rfl rfl))
  | length bound =>
      exact field.bind fun _ hf => (gives _).bind fun _ _ => (gives _).bind fun _ _ =>
        .pure (.atom (Head.named_of_field hf rfl rfl rfl rfl))
  | quota kind =>
      exact (gives _).bind fun _ _ => (gives _).bind fun _ _ =>
        (gives_ruleList hr).bind fun _ hrs => .pure (.junction hrs)
  | contextual => exact (gives _).bind fun _ _ => .pure (.atom ⟨nofun, nofun, nofun, nofun⟩)
  | expression => exact (gives _).bind fun _ _ => .pure (.atom ⟨nofun, nofun, nofun, nofun⟩)
  | custom =>
      exact (gives _).bind fun _ _ => (gives _).bind fun _ _ => (gives _).bind fun _ _ =>
        .pure (.atom ⟨nofun, nofun, nofun, nofun⟩)
  | template =>
      refine (gives _).bind fun _ _ => (((gives _).bind fun _ _ => gives_parameter).many).bind
        fun _ hps => .pure (.atom ⟨nofun, nofun, nofun, List.forall_mem_map.mpr fun e he => ?_⟩)
      exact hps e (KeyMap.mem_of_mem_ofList e he)
  | plain =>
      refine (gives _).bind fun _ _ =>
        (((gives _).bind fun _ _ => gives_functionArgument).separated (gives _)).bind
          fun args has => .pure (.atom ⟨nofun, ?_, ?_, nofun⟩)
      · refine List.forall_mem_map.mpr fun a ha => ?_
        obtain ⟨ha, hk⟩ := List.mem_filter.mp ha
        exact has a ha (of_decide_eq_true hk)
      · intro s hs
        obtain rfl := Option.some.inj hs
        exact ⟨hn, isReservedCall_of_plain hform⟩

/-- A call adds a level to the rules in it. -/
theorem gives_callBody (hr : Gives rule (Produced n)) {name : String} (hn : isName name = true) :
    Gives (callBody rule name) (Produced (n + 1)) :=
  (gives_callArguments hr hn rfl).bind fun _ h => (gives _).bind fun _ _ => .pure h

/-! ### Chains -/

theorem gives_linksWithin (op : Connective) (hp : Gives p (Produced n)) (fuel : Nat) :
    Gives (linksWithin op p fuel) fun rs => ∀ r ∈ rs, Produced n r := by
  induction fuel with
  | zero =>
      intro cs rs rest _ h
      cases h
      exact ⟨trivial, List.forall_mem_nil _⟩
  | succ fuel ih =>
      intro cs rs rest _ h
      rw [linksWithin] at h
      cases hk : keyword op (skipTrivia cs) with
      | fail f r =>
          rw [hk] at h
          cases h
          exact ⟨trivial, List.forall_mem_nil _⟩
      | ok u behind =>
          rw [hk] at h
          have further : Gives (do
              let r ← commit p
              let rs ← linksWithin op p fuel
              return r :: rs : Grammar (List Rule)) fun rs => ∀ r ∈ rs, Produced n r :=
            hp.commit.bind fun _ hr => ih.bind fun _ hrs =>
              .pure (List.forall_mem_cons.mpr ⟨hr, hrs⟩)
          exact further behind rs rest trivial h

/-- A chain adds a level. -/
theorem gives_chainFrom (op : Connective) (hp : Gives p (Produced n)) {first : Rule}
    (hf : Produced n first) : Gives (chainFrom op p first) fun q => Produced (n + 1) q.1 := by
  have links : Gives (links op p) fun rs => ∀ r ∈ rs, Produced n r := fun cs =>
    gives_linksWithin op hp (cs.length + 1) cs
  refine links.bind fun rs hrs => ?_
  cases rs with
  | nil => exact .pure (hf.mono (Nat.le_succ n))
  | cons r rs => exact .pure (.junction (List.forall_mem_cons.mpr ⟨hf, hrs⟩))

/-- A chain adds a level to its operands. -/
theorem gives_chain (op : Connective) (hp : Gives p (Produced n)) :
    Gives (chain op p) (Produced (n + 1)) :=
  hp.bind fun _ hf => (gives_chainFrom op hp hf).bind fun _ hr => .pure hr

section

variable (hp : Gives p (Produced n))
include hp

/-- The chains around an operand add four levels. -/
theorem gives_implication : Gives (implication p) (Produced (n + 4)) :=
  gives_chain .implies (gives_chain .or (gives_chain .xor (gives_chain .and hp)))

/-- The four chains of an expression add a level each. -/
theorem gives_expressionFrom {first : Rule} (hf : Produced n first) :
    Gives (expressionFrom p first) fun q => Produced (n + 4) q.1 :=
  (gives_chainFrom .and hp hf).bind fun _ ha =>
    (gives_chainFrom .xor (gives_chain .and hp) ha).bind fun _ hb =>
      (gives_chainFrom .or (gives_chain .xor (gives_chain .and hp)) hb).bind fun _ hc =>
        (gives_chainFrom .implies (gives_chain .or (gives_chain .xor (gives_chain .and hp)))
          hc).bind fun _ hd => .pure hd

end

/-! ### `NOT` at the start of parentheses -/

section

variable {op : Connective} {first r : Rule} {cs rest : List Char} {b : Bool} {k m : Nat}

/-- The `NOT` goes to the first operand, where it adds a level of its own, and not on top of the
chains. -/
theorem gives_expressionFrom_negated (hp : Gives p (Produced n)) (hf : Produced n first)
    (hnot : Produced n (.group .not [first])) :
    Gives (expressionFrom p first)
      fun q => Produced (n + 4) q.1 ∧ Produced (n + 4) (negateFirst q.2 q.1) := by
  intro cs q rest _ h
  have around : expressionFrom p (.group .not [first]) cs = .ok (negateFirst q.2 q.1, q.2) rest := by
    rw [expressionFrom_negateFirst, bind_ok h]
    rfl
  exact ⟨trivial, (gives_expressionFrom hp hf cs q rest trivial h).2,
    (gives_expressionFrom hp hnot cs _ rest trivial around).2⟩

end

/-! ### Primaries -/

/-- What follows `NOT`, as an expression or as a member. -/
def Negated.Produced (n : Nat) : Negated → Prop
  | .expression r => Dsl.Produced n r
  | .member r => Dsl.Produced n r

/-- A condition has one level. -/
theorem gives_conditionRest {field : String} (hf : isName field = true) :
    Gives (conditionRest field) (Produced (n + 1)) :=
  (gives _).bind fun _ _ => (gives _).bind fun _ _ => (gives _).bind fun _ _ =>
    gives_operand.commit.bind fun v hv => .pure (.atom ⟨List.forall_mem_singleton.mpr hf, by
      intro w hw
      obtain ⟨a, ha, rfl⟩ := List.mem_map.mp hw
      obtain ⟨ha, hk⟩ := List.mem_filter.mp ha
      obtain rfl := List.mem_singleton.mp ha
      exact hv (of_decide_eq_true hk), nofun, nofun⟩)

section

variable (he : Gives (expression below) (Produced n))
variable (hn : Gives (negated below below₂) (Negated.Produced n))

include he hn in
/-- A group adds a level to its members. -/
theorem gives_group : Gives (group below below₂) (Produced (n + 1)) := by
  have more : Gives (many (do spaced ','; expression below)) fun rs => ∀ r ∈ rs, Produced n r :=
    ((gives _).bind fun _ _ => he).many
  refine (gives _).bind fun _ _ => (gives _).bind fun op _ => (gives _).bind fun _ _ =>
    (gives _).bind fun next _ => ?_
  cases next with
  | some _ => exact .pure (.junction (List.forall_mem_nil _))
  | none =>
      refine .ite (hn.bind fun m hm => ?_) ?_
      · cases m with
        | expression r => exact .pure (Produced.mono hm (Nat.le_succ n))
        | member r =>
            exact more.bind fun _ hrs => .pure (.junction (List.forall_mem_cons.mpr ⟨hm, hrs⟩))
      · exact he.bind fun _ hf => more.bind fun _ hrs =>
          .pure (.junction (List.forall_mem_cons.mpr ⟨hf, hrs⟩))

include he hn in
/-- Parentheses add at most a level to what stands between them. -/
theorem gives_parenthesized : Gives (parenthesized below below₂) (Produced (n + 1)) := by
  refine (gives _).bind fun _ _ => (gives_group he hn).optional.bind fun g hg => ?_
  have close {r : Rule} (hr : Produced (n + 1) r) :
      Gives (do punctuation ')'; return r : Grammar Rule) (Produced (n + 1)) :=
    (gives _).bind fun _ _ => .pure hr
  cases g with
  | some r => exact (Takes.pure (hg r rfl)).bind fun _ hr => close hr
  | none => exact he.commit.bind fun _ hr => close (hr.mono (Nat.le_succ n))

include he in
theorem gives_named : Gives (named below) (Produced (n + 1)) :=
  gives_nameString.bind fun _ hs => (gives _).optional_bind
    (fun _ _ => gives_callBody he hs) (gives_conditionRest hs)

include he hn in
/-- A primary rule adds at most a level to the expressions in it. -/
theorem gives_primary : Gives (primary below below₂) (Produced (n + 1)) :=
  (gives _).bind fun _ _ =>
    ((gives_parenthesized he hn).orElse
      ((gives_fieldReference.bind fun _ hs => gives_conditionRest hs).orElse
        (gives_named he))).expecting "expression"

include he hn in
/-- An operand adds at most a level to what is below it. -/
theorem gives_operandWith (hu : Gives (nested below commit) (Produced n)) :
    Gives (operandWith below below₂) (Produced (n + 1)) := by
  refine (gives _).bind fun _ _ => (gives _).bind fun next _ => ?_
  cases next with
  | some _ => exact hu.bind fun _ hr => .pure (.junction (List.forall_mem_singleton.mpr hr))
  | none => exact gives_primary he hn

end

/-! ### Levels -/

/-- Without a level left nothing is read. -/
theorem gives_nested {k : Nat} {Q : α → Prop} {p : Grammar Rule → Grammar α}
    (h : ∀ j, k = j + 1 → Gives (p (unary j)) Q) : Gives (nested (levelBelow k) p) Q := by
  cases k with
  | zero => exact .abort _
  | succ j => exact h j rfl

/-- What follows `NOT` is one level further down than the chains around it, which leaves a level
for the `NOT`. -/
theorem gives_negated {k : Nat} (h : ∀ j < k, Gives (unary j) (Produced (5 * j + 1))) :
    Gives (negated (levelBelow k) (levelBelow (k - 1))) (Negated.Produced (5 * k)) := by
  refine gives_nested fun j e => ?_
  obtain rfl := e
  have first : Gives (nested (levelBelow j) id)
      fun r => Produced (5 * j + 1) r ∧ Produced (5 * j + 1) (.group .not [r]) := by
    refine gives_nested fun i e cs r rest _ hr => ⟨trivial, ?_⟩
    obtain rfl := e
    have hr := (h i (by omega) cs r rest trivial hr).2
    have under : Produced (5 * i + 2) (.group .not [r]) :=
      .junction (List.forall_mem_singleton.mpr hr)
    exact ⟨hr.mono (by omega), under.mono (by omega)⟩
  refine first.bind fun first hf =>
    (gives_expressionFrom_negated (h j (Nat.lt_succ_self j)) hf.1 hf.2).bind fun q hq =>
      (gives _).bind fun next _ => ?_
  cases next with
  | some _ => exact .pure hq.1
  | none => exact .pure hq.2

/-- **An operand has at most five levels for each level of text that is left**, and one of its
own. -/
theorem gives_unary (k : Nat) : Gives (unary k) (Produced (5 * k + 1)) := by
  induction k using Nat.strong_induction_on with
  | _ k ih =>
      have expressions : Gives (expression (levelBelow k)) (Produced (5 * k)) :=
        gives_nested fun j e => (gives _).bind fun _ _ => by
          obtain rfl := e
          exact gives_implication (ih j (Nat.lt_succ_self j))
      have operands : Gives (nested (levelBelow k) commit) (Produced (5 * k)) :=
        gives_nested fun j e => by
          obtain rfl := e
          intro cs r rest _ hr
          exact ⟨trivial, ((ih j (Nat.lt_succ_self j)).commit cs r rest trivial hr).2.mono
            (by omega)⟩
      rw [unary_eq]
      exact gives_operandWith expressions (gives_negated ih) operands

/-- A document has at most five levels for each level of text. -/
theorem gives_document :
    Gives document fun o => ∀ r ∈ o, Produced (5 * textNestingLimit) r := by
  refine (gives _).bind fun _ _ => ?_
  intro cs o rest _ h
  cases cs with
  | nil =>
      cases h
      exact ⟨trivial, nofun⟩
  | cons c cs =>
      have top : Gives topExpression (Produced (5 * textNestingLimit)) :=
        (gives _).bind fun _ _ => gives_implication (gives_unary _)
      have whole : Gives (do
          let r ← topExpression
          trivia
          return some r : Grammar (Option Rule))
          fun o => ∀ r ∈ o, Produced (5 * textNestingLimit) r :=
        top.bind fun _ hr => (gives _).bind fun _ _ => .pure (by simpa using hr)
      exact whole _ _ _ trivial h

/-! ### Whole texts -/

/-- **What the grammar reads has no records, named heads and a bounded number of levels.** -/
theorem produced_of_readStructure {text : List Char} {r : Rule}
    (h : readStructure text = .ok (some r)) : Produced (5 * textNestingLimit) r :=
  (gives_document text (some r) [] trivial (document_of_readStructure h)).2 r rfl

section

variable {text : String} {r : Rule} (h : parse text = .ok (some r))
include h

/-- **The heads of a rule that is read are named.** -/
theorem named_of_parse : ∀ q ∈ r.preorder, q.head.Named := by
  obtain ⟨q, hs, e⟩ := readStructure_of_parse h
  exact Rule.named_of_bare_eq e (produced_of_readStructure hs).named

/-- **A rule that is read has at most five levels for each level of text.** -/
theorem depth_le_of_parse : r.depth ≤ 5 * textNestingLimit := by
  obtain ⟨q, hs, e⟩ := readStructure_of_parse h
  rw [Rule.depth_eq_of_bare_eq e]
  exact (produced_of_readStructure hs).depth

end

end Dsl

end Rulebook
