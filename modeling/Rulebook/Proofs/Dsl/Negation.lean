import Rulebook.Proofs.Dsl.Keywords
import Rulebook.Proofs.Dsl.Tracks

/-!
# Rulebook — Proofs — Dsl — Negation

Texts that start with `NOT`.  What stands behind it is read one level down, and nothing at all is
read where no operand can start behind a pair of `NOT` (`doomed_unary_of_not`), neither as an
expression nor as the members of a group.
-/

namespace Rulebook.Dsl

open Grammar

variable {D : List Char → Prop} {k k₂ : Nat} {cs mid b : List Char}

/-! ### Operands -/

/-- There is no operand where none can start. -/
theorem refuses_operandWith_of_not {below below₂ : Option (Grammar Rule)} (h : ¬ StartsOperand cs) :
    (operandWith below below₂).Refuses cs := by
  have outside {c : Char} {t : List Char} (e : skipTrivia cs = c :: t) :
      Text.isNameStart c = false ∧ c ≠ '(' ∧ c ≠ '$' := by
    refine ⟨Bool.eq_false_iff.mpr fun hc => h ⟨c, t, e, .inl hc⟩, ?_, ?_⟩
    · exact fun hc => h ⟨c, t, e, .inr (.inl hc)⟩
    · exact fun hc => h ⟨c, t, e, .inr (.inr hc)⟩
  have name : Text.StartsOutside Text.isNameStart (skipTrivia cs) := by
    cases e : skipTrivia cs with
    | nil => exact Text.startsOutside_nil
    | cons c t => exact Text.startsOutside_cons (outside e).1
  have plain : Plain (skipTrivia cs) := by
    cases e : skipTrivia cs with
    | nil => exact plain_of_ends Text.startsOutside_nil
    | cons c t => exact plain_of_start (outside e).1
  have primary : (primary below below₂).Refuses (skipTrivia cs) := by
    refine Refuses.of_bind (p := trivia) rfl (Refuses.marked ?_ _)
    rw [skipTrivia_skipTrivia]
    exact (refuses_parenthesized fun _ e => (outside e).2.1 rfl).orElse
      ((refuses_referenceCondition fun _ e => (outside e).2.2 rfl).orElse
        (((refuses_name name).bind _).bind _))
  exact Refuses.of_bind (p := trivia) rfl
    (Refuses.of_bind (optional_of_refuses (refuses_keyword_of_none plain .not)) primary)

/-- There is no operand at the end of a text. -/
theorem refuses_operandWith_nil {below below₂ : Option (Grammar Rule)} (h : skipTrivia cs = []) :
    (operandWith below below₂).Refuses cs := by
  refine refuses_operandWith_of_not ?_
  rintro ⟨c, t, e, -⟩
  rw [h] at e
  cases e

/-- Behind `NOT` an operand is read one level down. -/
theorem unary_negates (h : Negates cs mid) (k : Nat) : unary k cs =
    (do let r ← nested (levelBelow k) commit; return .group .not [r] : Grammar Rule) mid := by
  rw [unary_eq, operandWith, trivia_bind, bind_ok (optional_of_ok h.keyword)]

theorem unary_succ_ok {x : Rule} {rest : List Char} (h : Negates cs mid)
    (hx : unary k mid = .ok x rest) : unary (k + 1) cs = .ok (.group .not [x]) rest := by
  rw [unary_negates h]
  exact bind_ok (commit_ok hx)

theorem doomed_unary_succ (h : Negates cs mid) (hx : (unary k mid).Doomed D) :
    (unary (k + 1) cs).Doomed D := by
  rw [unary_negates h]
  exact doomed_bind (doomed_commit hx) fun _ => .pure _

theorem doomed_unary_of_fails (h : Negates cs mid) (hx : Fails (unary k) mid) :
    (unary (k + 1) cs).Doomed D := by
  rw [unary_negates h]
  exact doomed_bind (D := Never) (doomed_commit_of_fails hx) fun _ => .of_never

theorem doomed_unary_zero (h : Negates cs mid) : (unary 0 cs).Doomed D := by
  rw [unary_negates h]
  exact doomed_bind (D := Never) rfl fun _ => .of_never

/-- Behind a pair of `NOT` there has to be an operand. -/
theorem doomed_unary_of_not (first : Negates cs mid) (second : Negates mid b)
    (hb : ¬ StartsOperand b) : (unary k cs).Doomed D := by
  match k with
  | 0 => exact doomed_unary_zero first
  | 1 => exact doomed_unary_succ first (doomed_unary_zero second)
  | k + 2 =>
      refine doomed_unary_succ first (doomed_unary_of_fails second ?_)
      rw [unary_eq]
      exact (refuses_operandWith_of_not hb).fails

/-- An operand skips what stands in front of it. -/
theorem unary_skipTrivia (k : Nat) (cs : List Char) : unary k (skipTrivia cs) = unary k cs := by
  rw [unary_eq, operandWith, trivia_bind, trivia_bind, skipTrivia_skipTrivia]

/-- Nothing is read of an expression whose first operand fails for good. -/
theorem doomed_expression (h : ∀ k, (unary k cs).Doomed Never) (k : Nat) :
    (expression (levelBelow k) cs).Doomed D := by
  cases k with
  | zero => exact rfl
  | succ k =>
      have first {f : Rule → Grammar Rule} : ((unary k >>= f) (skipTrivia cs)).Doomed Never :=
        doomed_bind (unary_skipTrivia k cs ▸ h k) fun _ => .of_never
      exact (doomed_bind (doomed_bind (doomed_bind first fun _ => .of_never) fun _ => .of_never)
        fun _ => .of_never).mono fun _ => False.elim

theorem doomed_negated (h : ∀ k, (unary k cs).Doomed Never) (k k₂ : Nat) :
    (negated (levelBelow k) (levelBelow k₂) cs).Doomed D := by
  cases k with
  | zero => exact rfl
  | succ k =>
      cases k₂ with
      | zero => exact rfl
      | succ k₂ => exact doomed_bind (h k₂) fun _ => .of_never

/-! ### Groups -/

/-- What `NOT` and the operand behind it are read as at the start of an expression. -/
theorem expression_negates {k n : Nat} {x q : Rule} {t rest : List Char} (h : Negates cs mid)
    (hx : unary k mid = .ok x t) (hq : expressionFrom (unary (k + 1)) x t = .ok (q, n) rest) :
    expression (levelBelow (k + 2)) cs = .ok (negateFirst n q) rest := by
  have operand : unary (k + 1) (skipTrivia cs) = .ok (.group .not [x]) t :=
    (unary_skipTrivia _ cs).trans (unary_succ_ok h hx)
  exact (expression_some _ cs).trans (implication_negation operand hq)

/-- **A group that starts with `NOT` is read as the expression that the `NOT` is a part of**, unless
a comma follows behind the chains around its operand. -/
theorem group_negates {r : Rule} {rest : List Char} (h : Negates cs mid)
    (hc : ∀ u, skipTrivia mid ≠ ')' :: u)
    (hg : group (levelBelow k) (levelBelow (k - 1)) cs = .ok r rest) :
    expression (levelBelow k) cs = .ok r rest ∨ ∃ m x t q u after, unary m mid = .ok x t ∧
      expressionFrom (unary (m + 1)) x t = .ok q u ∧ spaced ',' u = .ok () after := by
  obtain ⟨w, e, hw, hm⟩ := h
  rw [← group_skipTrivia, e, group_member hw hm hc, if_pos rfl] at hg
  obtain ⟨kind, rest', hn, hg⟩ := bind_eq_ok hg
  match k with
  | 0 => cases hn
  | 1 => cases hn
  | m + 2 =>
      obtain ⟨x, t, hx, around⟩ := bind_eq_ok hn
      obtain ⟨⟨q, n⟩, u, hq, kinds⟩ := bind_eq_ok around
      obtain ⟨comma, u', ho, made⟩ := bind_eq_ok kinds
      have hx : unary m mid = .ok x t := (unary_skipTrivia m mid).symm.trans hx
      obtain ⟨_, rfl, peeked⟩ | ⟨rfl, rfl⟩ := optional_eq_ok ho
      · obtain ⟨after, comma⟩ := exists_of_peek peeked
        exact .inr ⟨m, x, t, _, u, after, hx, hq, comma⟩
      · cases made
        cases hg
        exact .inl (expression_negates ⟨w, e, hw, hm⟩ hx hq)

/-- The members of a group that has some. -/
def groupMembers (below below₂ : Option (Grammar Rule)) (op : Connective) : Grammar Rule :=
  if op = .not then do
    match ← negated below below₂ with
    | .expression r => return r
    | .member r => return .group op (r :: (← many (do spaced ','; expression below)))
  else do
    let first ← expression below
    return .group op (first :: (← many (do spaced ','; expression below)))

/-- A group is its connective, and behind it either nothing or its members. -/
theorem group_members (below below₂ : Option (Grammar Rule)) :
    group below below₂ = (do
      trivia
      let op ← connective
      trivia
      match ← optional (peek (char ')')) with
      | some _ => return .group op []
      | none => groupMembers below below₂ op) := rfl

theorem doomed_groupMembers (h : ∀ k, (unary k cs).Doomed Never) (op : Connective) :
    (groupMembers (levelBelow k) (levelBelow k₂) op cs).Doomed D := by
  rw [groupMembers]
  split
  · exact doomed_bind (doomed_negated h k k₂ (D := Never)) fun _ => .of_never
  · exact doomed_bind (doomed_expression h k (D := Never)) fun _ => .of_never

end Rulebook.Dsl
