import Rulebook.Proofs.Dsl.Arguments
import Rulebook.Proofs.Dsl.Negation

/-!
# Rulebook — Proofs — Dsl — Productions

The grammar on two texts whose lexemes go together, production by production.  Inside parentheses
every production on the second text tracks the same one on the first.  Outside, a chain looks for
its keyword where the first text ends and the second goes on, so that chains and expressions go
together only if no keyword comes next there.

The second reader may be further down: it starts with fewer levels left, and runs out of them or
reads what goes with the first (`operand_unary`).
-/

namespace Rulebook.Dsl

open Grammar

variable {α : Type} {B : Bridge} {P : Bool → Bool → Rule → Rule → Prop} {deep : Prop} {i : Bool}
  {n : Nat} {D : List Char → Prop}

/-! ### Operands and chains -/

/-- The second reader of operands tracks the first wherever an operand may start. -/
structure Operand (B : Bridge) (P : Bool → Bool → Rule → Rule → Prop) (deep : Prop) (n : Nat)
    (p q : Grammar Rule) : Prop where
  tracks : ∀ i, Tracks deep B.Dead (B.Begins i n) (Passes P (B.Settled · n) i) p q
  stops : ∀ cs, skipTrivia cs = [] → p.Fails cs
  keeps : ∀ text k, Keeps (Cut text k) p (PassesIn text)
  keeps' : ∀ text k, Keeps (Cut text k) q (PassesIn text)

/-- Rules that go together around operands so many junctions down, and go together if those operands
are negated. -/
def Around (P : Bool → Bool → Rule → Rule → Prop) (levels : Nat) (i j : Bool) (r q : Rule) : Prop :=
  P i j r q ∧ P i j (negateFirst levels r) (negateFirst levels q)

/-- Related rules are around themselves. -/
theorem Fits.around (hP : Fits B P) {j : Bool} {r q : Rule} (h : P i j r q) : Around P 0 i j r q :=
  ⟨h, hP.junction (.cons h .nil)⟩

/-- Groups of related members are related around the first one's operand. -/
theorem Fits.around_group (hP : Fits B P) {op : Connective} {levels : Nat} {j k : Bool} {r q : Rule}
    {rs qs : List Rule} (h : Around P levels i j r q) (hs : Chained P j k rs qs) :
    Around P (levels + 1) i k (.group op (r :: rs)) (.group op (q :: qs)) :=
  ⟨hP.junction (.cons h.1 hs), hP.junction (.cons h.2 hs)⟩

/-- A keyword is never needed. -/
theorem committed_of_keyword {op : Connective} {cs rest : List Char} {f : Fault}
    (h : keyword op cs = .fail f rest) : f.committed = false := by
  have bare {cs : List Char} (hb : notBefore Text.isNamePart cs = .fail f rest) :
      f.committed = false := by
    cases cs with
    | nil => cases hb
    | cons c cs =>
        rw [notBefore] at hb
        split at hb
        · cases hb
          rfl
        · cases hb
  rw [keyword, bind_apply, letters] at h
  split at h
  · rename_i hl
    split at hl
    · exact bare h
    · cases hl
  · rename_i hl
    split at hl
    · cases hl
    · cases hl
      cases h
      rfl

section

variable {p q : Grammar Rule} {cs ds rest : List Char}

theorem linksWithin_of_keyword {op : Connective}
    (h : keyword op (skipTrivia cs) = .ok () rest) (fuel : Nat) :
    linksWithin op p (fuel + 1) cs =
      (do
        let r ← commit p
        let rs ← linksWithin op p fuel
        return r :: rs : Grammar (List Rule)) rest := by
  rw [linksWithin, h]

/-- A link takes at least its keyword. -/
theorem length_lt_of_keyword {op : Connective}
    (h : keyword op (skipTrivia cs) = .ok () rest) : rest.length < cs.length := by
  obtain ⟨w, e, hs, -⟩ := keyword_eq_ok h
  obtain ⟨c, t, rfl, -⟩ := exists_cons_of_isName (isName_of_sameLetters hs)
  have taken := congrArg List.length e
  have skipped := skipTrivia_length_le cs
  rw [List.length_append, List.length_cons] at taken
  omega

namespace Bridge

/-- Both texts go on with the same keyword, or neither does. -/
theorem keyword_cases (op : Connective) (hn : n = 0 → Plain B.tail) (h : B.Settled i n cs ds) :
    (∃ rest rest', keyword op (skipTrivia cs) = .ok () rest ∧
      keyword op (skipTrivia ds) = .ok () rest' ∧ B.Aligned false i n rest rest') ∨
    ((keyword op).Refuses (skipTrivia cs) ∧ (keyword op).Refuses (skipTrivia ds)) := by
  obtain hf | ⟨e, -, hc, hd⟩ := h
  · have reads : Tracks False Never (B.Ahead i n) _ _ _ :=
      tracks_lexical (lexical_keyword op) (uniform_keyword op)
    have read := reads _ _ hf
    obtain ⟨_, _, t, u, hp, hq, -, hs⟩ | refuses | stops | ⟨hd, -⟩ := tracks_cases read
    · exact .inl ⟨t, u, hp, hq, hs⟩
    · exact .inr refuses
    · obtain ⟨_, _, -, never⟩ | ⟨f, t, hp, hf⟩ := doomed_cases stops
      · exact never.elim
      · rw [committed_of_keyword hp] at hf
        cases hf
    · exact hd.elim
  · rw [hc, hd]
    exact .inr ⟨refuses_keyword_of_none (plain_of_ends Text.startsOutside_nil) op,
      refuses_keyword_of_none (hn e) op⟩

/-- No chain goes on with the pair of `NOT`. -/
theorem halts_links {op : Connective} (hop : op ≠ .not) (p : Grammar Rule) :
    Halts B.Dead B.Dead (links op p) := by
  rintro cs ⟨hg, mid, first⟩
  exact doomed_of_ok (linksWithin_nil (first.refuses_keyword hop) _) ⟨hg, mid, first⟩

/-- Where a `NOT` of the pair comes next, a chain ends. -/
theorem halts_chainFrom {op : Connective} (hop : op ≠ .not) (p : Grammar Rule) (first : Rule) :
    Halts B.Dead B.Dead (chainFrom op p first) := by
  refine (halts_links hop p).bind fun rs => ?_
  cases rs with
  | nil => exact .pure _
  | cons r rs => exact .pure _

/-- Where a `NOT` of the pair comes next, an expression ends. -/
theorem halts_expressionFrom (p : Grammar Rule) (first : Rule) :
    Halts B.Dead B.Dead (expressionFrom p first) :=
  (halts_chainFrom (by decide) p _).bind fun _ => (halts_chainFrom (by decide) _ _).bind fun _ =>
    (halts_chainFrom (by decide) _ _).bind fun _ => (halts_chainFrom (by decide) _ _).bind fun _ =>
      .pure _

end Bridge

open Bridge

/-- An operand that is needed is not at the end of the first text. -/
theorem Operand.commit (h : Operand B P deep n p q) (i : Bool) :
    Tracks deep B.Dead (B.Aligned false i n) (Passes P (B.Settled · n) i) (commit p) (commit q) := by
  intro cs ds hr
  obtain hf | ⟨-, -, hc, -⟩ | ⟨-, gate⟩ := hr.cases
  · exact (h.tracks i).commit cs ds (.inl hf)
  · exact .doomed (doomed_commit_of_fails (h.stops cs hc))
  · exact (h.tracks i).commit cs ds (.inr gate)

section

variable (hP : Fits B P) (hn : n = 0 → Plain B.tail) (h : Operand B P deep n p q)

include hn h in
/-- Links track one another stage by stage. -/
theorem tracks_linksWithin {op : Connective} (hop : op ≠ .not) : ∀ a b i,
    Tracks deep B.Dead (fun cs ds => B.Settled i n cs ds ∧ cs.length < a ∧ ds.length < b)
      (Passes (Chained P) (B.Settled · n) i) (linksWithin op p a) (linksWithin op q b)
  | 0, _, _, _, _, ⟨_, ha, _⟩ => absurd ha (Nat.not_lt_zero _)
  | _ + 1, 0, _, _, _, ⟨_, _, hb⟩ => absurd hb (Nat.not_lt_zero _)
  | a + 1, b + 1, i, cs, ds, ⟨hr, ha, hb⟩ => by
      obtain ⟨rest, rest', hk, hk', hs⟩ | ⟨hk, hk'⟩ := keyword_cases op hn hr
      · have shorter := length_lt_of_keyword hk
        have shorter' := length_lt_of_keyword hk'
        have bounded : Bounded (Grammar.commit p) :=
          bounded_of_keeps fun text => (h.keeps text 0).commit
        have bounded' : Bounded (Grammar.commit q) :=
          bounded_of_keeps fun text => (h.keeps' text 0).commit
        have more (r : Rule) : Halts B.Dead B.Dead
            (do let rs ← linksWithin op p a; return r :: rs : Grammar (List Rule)) := by
          have none : Halts B.Dead B.Dead (linksWithin op p a) := by
            rintro cs ⟨hg, mid, first⟩
            exact doomed_of_ok (linksWithin_nil (first.refuses_keyword hop) a) ⟨hg, mid, first⟩
          exact none.bind fun _ => .pure _
        rw [linksWithin_of_keyword hk, linksWithin_of_keyword hk']
        refine ((h.commit i).within bounded bounded' a b).bind ?_ more rest rest'
          ⟨hs, by omega, by omega⟩
        rintro r r' cs ds ⟨⟨j, hp, hs⟩, ha, hb⟩
        exact ((tracks_linksWithin hop a b j).bind (fun rs qs => .passes fun k hc =>
          .pure fun _ _ h => ⟨k, .cons hp hc, h⟩) fun _ => .pure _) cs ds ⟨hs, ha, hb⟩
      · rw [linksWithin_nil hk, linksWithin_nil hk']
        exact .ok ⟨i, .nil, hr⟩

include hP hn h in
/-- Chains track one another from their first members on. -/
theorem tracks_chainFrom {op : Connective} (hop : op ≠ .not) {levels : Nat} {j : Bool}
    {first first' : Rule} (hf : Around P levels i j first first') :
    Tracks deep B.Dead (B.Settled j n) (fun a b cs ds => a.2 = b.2 ∧
      Passes (Around P (levels + a.2.toNat)) (B.Settled · n) i a.1 b.1 cs ds)
      (chainFrom op p first) (chainFrom op q first') := by
  have links : Tracks deep B.Dead (B.Settled j n) (Passes (Chained P) (B.Settled · n) j) (links op p)
      (links op q) := fun cs ds hr => tracks_linksWithin hn h hop _ _ j cs ds
    ⟨hr, Nat.lt_succ_self _, Nat.lt_succ_self _⟩
  refine links.bind (fun rs qs => .passes fun k hc => ?_) fun rs => ?_
  · cases hc with
    | nil => exact .pure fun _ _ h => ⟨rfl, j, hf, h⟩
    | cons hp hs => exact .pure fun _ _ h => ⟨rfl, k, hP.around_group hf (.cons hp hs), h⟩
  · cases rs with
    | nil => exact .pure _
    | cons r rs => exact .pure _

namespace Operand

include hP hn h

/-- Chains of operands are operands. -/
theorem chain {op : Connective} (hop : op ≠ .not) :
    Operand B P deep n (Dsl.chain op p) (Dsl.chain op q) where
  tracks i := (h.tracks i).bind (fun _ _ => .passes fun _ hf =>
    (tracks_chainFrom hP hn h hop (hP.around hf)).bind (fun _ _ => .given fun _ => .passes fun k hp =>
      .pure fun _ _ h => ⟨k, hp.1, h⟩) fun _ => .pure _) fun _ =>
        (halts_chainFrom hop p _).bind fun _ => .pure _
  stops cs hc := (h.stops cs hc).bind _
  keeps text k := keeps_chain op (h.keeps text k)
  keeps' text k := keeps_chain op (h.keeps' text k)

theorem conjunction : Operand B P deep n (Dsl.conjunction p) (Dsl.conjunction q) :=
  h.chain hP hn (by decide)

theorem exclusion : Operand B P deep n (Dsl.exclusion p) (Dsl.exclusion q) :=
  (h.conjunction hP hn).chain hP hn (by decide)

theorem disjunction : Operand B P deep n (Dsl.disjunction p) (Dsl.disjunction q) :=
  (h.exclusion hP hn).chain hP hn (by decide)

/-- Implications of operands are operands. -/
theorem implication : Operand B P deep n (Dsl.implication p) (Dsl.implication q) :=
  (h.disjunction hP hn).chain hP hn (by decide)

/-- The chains around operands that go together, negated or not. -/
theorem expressionFrom {j : Bool} {first first' : Rule} (hf : P i j first first') :
    Tracks deep B.Dead (B.Settled j n) (fun a b cs ds => a.2 = b.2 ∧
      Passes (Around P a.2) (B.Settled · n) i a.1 b.1 cs ds) (Dsl.expressionFrom p first)
      (Dsl.expressionFrom q first') := by
  refine (tracks_chainFrom hP hn h (by decide) (hP.around hf)).bind (fun _ _ => .given fun ea =>
    .passes fun _ ha => ?_) fun _ => (halts_chainFrom (by decide) _ _).bind fun _ =>
      (halts_chainFrom (by decide) _ _).bind fun _ => (halts_chainFrom (by decide) _ _).bind fun _ =>
        .pure _
  refine (tracks_chainFrom hP hn (h.conjunction hP hn) (by decide) ha).bind (fun _ _ =>
    .given fun eb => .passes fun _ hb => ?_) fun _ => (halts_chainFrom (by decide) _ _).bind fun _ =>
      (halts_chainFrom (by decide) _ _).bind fun _ => .pure _
  refine (tracks_chainFrom hP hn (h.exclusion hP hn) (by decide) hb).bind (fun _ _ =>
    .given fun ec => .passes fun _ hc => ?_) fun _ => (halts_chainFrom (by decide) _ _).bind fun _ =>
      .pure _
  refine (tracks_chainFrom hP hn (h.disjunction hP hn) (by decide) hc).bind (fun _ _ =>
    .given fun ed => .passes fun k hd => .pure fun _ _ h => ?_) fun _ => .pure _
  refine ⟨by rw [ea, eb, ec, ed], k, ?_, h⟩
  rwa [Nat.zero_add] at hd

end Operand

end

end

/-! ### Levels -/

/-- What the readers with `k` and `k'` levels left do one level down: the second may have run out
of levels if that is allowed. -/
def Lower (B : Bridge) (P : Bool → Bool → Rule → Rule → Prop) (deep : Prop) : Nat → Nat → Prop
  | 0, _ => True
  | _ + 1, 0 => deep
  | k + 1, k' + 1 => ∀ n, Operand B P deep n (unary k) (unary k')

/-- A reader that the level below allows leads from cut to cut. -/
theorem keeps_levelBelow (k : Nat) {text : List Char} :
    ∀ u ∈ levelBelow k, ∀ n, Keeps (Cut text n) u (PassesIn text) := by
  cases k with
  | zero => exact nofun
  | succ k =>
      intro u hu n
      cases hu
      exact keeps_unary k n

namespace Bridge

variable {k k' k₂ k₂' : Nat} {cs ds : List Char} (hP : Fits B P)

/-- Readers one level down track one another if those that the levels allow do. -/
theorem tracks_nested {R : List Char → List Char → Prop} {S : α → α → List Char → List Char → Prop}
    {p q : Grammar Rule → Grammar α} (hl : Lower B P deep k k')
    (hp : ∀ u u', (∀ n, Operand B P deep n u u') → Tracks deep D R S (p u) (q u')) :
    Tracks deep D R S (nested (levelBelow k) p) (nested (levelBelow k') q) := by
  match k, k', hl with
  | 0, _, _ => exact fun _ _ _ => .doomed rfl
  | _ + 1, 0, hd => exact fun _ ds _ => .tooDeep hd ⟨_, ds, rfl, rfl, rfl⟩
  | k + 1, k' + 1, hl => exact hp _ _ hl

include hP in
/-- Expressions track one another. -/
theorem tracks_expression (hn : n = 0 → Plain B.tail) (hl : Lower B P deep k k') (i : Bool) :
    Tracks deep B.Dead (B.Begins i n) (Passes P (B.Settled · n) i) (expression (levelBelow k))
      (expression (levelBelow k')) :=
  tracks_nested hl fun _ _ h => tracks_begins.step fun _ => ((h n).implication hP hn).tracks i

include hP in
/-- In parentheses every keyword is in both texts. -/
theorem tracks_inside (hl : Lower B P deep k k') (i : Bool) :
    Tracks deep B.Dead (B.Begins i (n + 1)) (Passes P (B.Settled · (n + 1)) i)
      (expression (levelBelow k)) (expression (levelBelow k')) :=
  tracks_expression hP (absurd · (Nat.succ_ne_zero n)) hl i

include hP in
/-- Members behind commas track one another. -/
theorem tracks_members (hl : Lower B P deep k k') (i : Bool) :
    Tracks deep B.Dead (B.Settled i (n + 1)) (Passes (Chained P) (B.Settled · (n + 1)) i)
      (many (do spaced ','; expression (levelBelow k)))
      (many (do spaced ','; expression (levelBelow k'))) :=
  Tracks.many (fun j => tracks_separator.step fun _ =>
    (tracks_inside hP hl j).starting fun _ _ => Aligned.begins)
    (fun _ h => (h.refuses (by decide)).bind _)
    (shortens_spaced ',' fun _ => keeps_expression (keeps_levelBelow k))
    (shortens_spaced ',' fun _ => keeps_expression (keeps_levelBelow k')) i

/-- Where a `NOT` of the pair comes next, there are no more members. -/
theorem halts_members (k : Nat) :
    Halts B.Dead B.Dead (many (do spaced ','; expression (levelBelow k))) :=
  .many fun _ h => (h.refuses (by decide)).bind _

/-! ### Conditions -/

/-- Behind a field there has to be a comparison. -/
theorem doomed_conditionRest (h : comparison.Refuses (skipTrivia cs)) (field : String) :
    (conditionRest field cs).Doomed D := by
  rw [conditionRest, trivia_bind]
  exact doomed_bind_of_yields (marked_yields (h.fails.commit []) _)

/-- A name alone is no operand. -/
theorem doomed_name {call : Grammar Rule} (h : comparison.Refuses (skipTrivia cs))
    (hs : (spaced '(').Refuses cs) (name : String) :
    ((do
      match ← optional (spaced '(') with
      | some _ => call
      | none => conditionRest name : Grammar Rule) cs).Doomed D := by
  rw [bind_ok (optional_of_refuses hs)]
  exact doomed_conditionRest h name

include hP in
/-- What is behind a field tracks itself. -/
theorem tracks_conditionRest (field : String) : Tracks deep Never (B.Aligned false i n)
    (Passes P (B.Aligned false · n) i) (conditionRest field) (conditionRest field) := by
  have symbol : Needed Never (expecting "comparison operator" (commit comparison)) :=
    (needed_of_lexical lexical_comparison wordless_comparison).marked _
  have value : Needed Never (commit operand) := needed_of_lexical lexical_operand wordless_operand
  exact tracks_needed_bind symbol (fun _ => tracks_needed_bind value
    (fun v => .pure fun _ _ h => ⟨i, hP.atom (.same _), h⟩) fun _ => .of_never) fun _ => .of_never

/-- Behind an operand the texts go on together, or a `NOT` comes next. -/
theorem tracks_settling {R : List Char → List Char → Prop} {p q : Grammar Rule}
    (h : Tracks deep Never R (Passes P (B.Aligned false · n) i) p q) :
    Tracks deep B.Dead R (Passes P (B.Settled · n) i) p q := by
  refine h.settle (fun _ => False.elim) ?_
  rintro r q cs ds ⟨j, hp, h⟩
  exact h.settled.imp_left fun h => ⟨j, hp, h⟩

/-! ### Parentheses -/

/-- A closing parenthesis leads both sides out of it with related rules. -/
theorem tracks_closed {j : Bool} {r q : Rule} (hp : P i j r q) : Tracks deep B.Dead
    (B.Settled j (n + 1)) (Passes P (B.Settled · n) i) (do punctuation ')'; return r)
    (do punctuation ')'; return q) :=
  tracks_settling ((tracks_close.starting fun _ _ => Settled.aligned).step fun _ =>
    .pure fun _ _ h => ⟨j, hp, h⟩)

theorem halts_closed {E : List Char → Prop} (r : Rule) :
    Halts B.Dead E (do punctuation ')'; return r : Grammar Rule) :=
  (halts_punctuation (by decide)).bind fun _ => .of_never

/-- What follows `NOT` in parentheses is of one kind in both texts. -/
inductive PassesNegated (P : Bool → Bool → Rule → Rule → Prop) (i j : Bool) :
    Negated → Negated → Prop where
  | expression {r q : Rule} (h : P i j r q) : PassesNegated P i j (.expression r) (.expression q)
  | member {r q : Rule} (h : P i j r q) : PassesNegated P i j (.member r) (.member q)

/-- A comma is looked for behind what follows `NOT`. -/
theorem halts_comma (p : Rule × Nat) : Halts B.Dead B.Dead (do
    match ← optional (peek (spaced ',')) with
    | some _ => return .member p.1
    | none => return .expression (negateFirst p.2 p.1) : Grammar Negated) :=
  .optional_bind (fun _ h => (h.refuses (by decide)).peek) (.pure _)

section

variable (hl : Lower B P deep k k') (hl₂ : Lower B P deep k₂ k₂')

include hP hl hl₂

/-- What is behind `NOT` at the start of parentheses tracks itself, as an expression or as a member.
-/
theorem tracks_negated : Tracks deep B.Dead (B.Begins i (n + 1))
    (Passes (PassesNegated P) (B.Settled · (n + 1)) i) (negated (levelBelow k) (levelBelow k₂))
    (negated (levelBelow k') (levelBelow k₂')) := by
  refine tracks_nested hl fun u u' h => ?_
  have first : Tracks deep B.Dead (B.Begins i (n + 1)) (Passes P (B.Settled · (n + 1)) i)
      (nested (levelBelow k₂) id) (nested (levelBelow k₂') id) :=
    tracks_nested hl₂ fun _ _ h₂ => (h₂ (n + 1)).tracks i
  refine first.bind (fun r q => .passes fun j hp => ?_) fun r =>
    (halts_expressionFrom u r).bind halts_comma
  refine ((h (n + 1)).expressionFrom hP (absurd · (Nat.succ_ne_zero n)) hp).bind
    (fun a b => .given fun e => .passes fun m hm => ?_) halts_comma
  refine tracks_separator.peek.optional_bind (fun _ _ => .pure fun _ _ h => ⟨m, .member hm.1, h⟩)
    (.pure fun _ _ h => ⟨m, .expression (e ▸ hm.2), h⟩) fun _ => .of_never

end

/-! ### The gate -/

include hP in
/-- At the gate the operand behind the pair is read two levels down. -/
theorem tracks_pair (hg : B.gated) (first : Negates cs mid) (second : Negates mid b)
    (h : ∀ m, k = m + 2 → (unary m b).Tracks deep B.Dead (Passes P (B.Settled · n) true)
      (unary k' ds)) :
    (unary k cs).Tracks deep B.Dead (Passes P (B.Settled · n) false) (unary k' ds) := by
  match k with
  | 0 => exact .doomed (doomed_unary_zero first)
  | 1 => exact .doomed (doomed_unary_succ first (doomed_unary_zero second))
  | m + 2 =>
      obtain ⟨r, q, t, u, hr, hq, j, hp, hs⟩ | ⟨hr, -⟩ | hr | ⟨hd, hq⟩ := tracks_cases (h m rfl)
      · exact tracks_of_ok (unary_succ_ok first (unary_succ_ok second hr)) hq
          ⟨j, hP.cancel hg hp, hs⟩
      · exact .doomed (doomed_unary_succ first (doomed_unary_of_fails second hr.fails))
      · exact .doomed (doomed_unary_succ first (doomed_unary_succ second hr))
      · exact .tooDeep hd hq

/-- What goes with the start of an operand is one. -/
theorem Facing.startsOperand (h : B.Facing i n cs ds) (hs : StartsOperand cs) :
    StartsOperand ds := by
  obtain ⟨c, t, e, hc⟩ := hs
  rw [Facing, e] at h
  generalize hx : c :: t = x at h
  generalize hy : skipTrivia ds = y at h
  cases h with
  | @intro m l l' cs ds sc sd hf hn t =>
      cases hf with
      | same =>
          obtain ⟨d, u, hd, -⟩ := sc.exists_cons
          rw [hd] at hx hy
          cases hx
          exact ⟨c, _, hy, hc⟩
      | respelt hw _ =>
          obtain ⟨op, -, kw'⟩ := B.same_keyword hw
          obtain ⟨d', u', hd', hc'⟩ := exists_cons_of_ofKeyword? kw'
          rw [Lexeme.text, hd'] at hy
          exact ⟨d', _, hy, .inl hc'⟩

/-- At the gate no group ends, unless nothing is read at all. -/
theorem AtGate.cases (h : B.AtGate i (n + 1) cs ds) :
    (∀ k, (unary k cs).Doomed Never) ∨ StartsOperand ds := by
  obtain ⟨-, -, mid, b, first, second, t⟩ := h
  by_cases hb : StartsOperand b
  · obtain facing | ⟨e, -⟩ := (t hb).begins
    · exact .inr (facing.startsOperand hb)
    · cases e
  · exact .inl fun k => doomed_unary_of_not first second hb

/-! ### Groups -/

/-- What stands in parentheses, up to the closing one. -/
def inParentheses (below below₂ : Option (Grammar Rule)) : Grammar Rule := do
  let r ← match ← optional (group below below₂) with
    | some r => pure r
    | none => commit (expression below)
  punctuation ')'
  return r

/-- What can be read as a group is, up to the closing parenthesis. -/
theorem inParentheses_of_ok {below below₂ : Option (Grammar Rule)} {r : Rule} {rest : List Char}
    (h : group below below₂ cs = .ok r rest) :
    inParentheses below below₂ cs = (do punctuation ')'; return r : Grammar Rule) rest := by
  rw [inParentheses, bind_ok (optional_of_ok h)]
  rfl

/-- What is refused as a group is read as an expression. -/
theorem inParentheses_of_refuses {below below₂ : Option (Grammar Rule)}
    (h : (group below below₂).Refuses cs) : inParentheses below below₂ cs =
      (do let r ← commit (expression below); punctuation ')'; return r : Grammar Rule) cs := by
  rw [inParentheses, bind_ok (optional_of_refuses h)]

section

variable (hl : Lower B P deep k k') (hl₂ : Lower B P deep k₂ k₂')

include hP hl hl₂

/-- The members of a group track one another. -/
theorem tracks_groupMembers (op : Connective) : Tracks deep B.Dead (B.Begins i (n + 1))
    (Passes P (B.Settled · (n + 1)) i) (groupMembers (levelBelow k) (levelBelow k₂) op)
    (groupMembers (levelBelow k') (levelBelow k₂') op) := by
  have halts (r : Rule) : Halts B.Dead B.Dead
      (do return .group op (r :: (← many (do spaced ','; expression (levelBelow k)))) :
        Grammar Rule) := (halts_members k).bind fun _ => .pure _
  have members {j : Bool} {r q : Rule} (hp : P i j r q) : Tracks deep B.Dead (B.Settled j (n + 1))
      (Passes P (B.Settled · (n + 1)) i)
      (do return .group op (r :: (← many (do spaced ','; expression (levelBelow k)))))
      (do return .group op (q :: (← many (do spaced ','; expression (levelBelow k'))))) :=
    (tracks_members hP hl j).bind (fun rs qs => .passes fun m hs =>
      .pure fun _ _ h => ⟨m, hP.junction (.cons hp hs), h⟩) fun _ => .pure _
  refine .ite (fun _ => ?_) fun _ => ?_
  · refine (tracks_negated hP hl hl₂).bind (fun r q => .passes fun j hp => ?_) fun r => ?_
    · cases hp with
      | expression hp => exact .pure fun _ _ h => ⟨j, hp, h⟩
      | member hp => exact members hp
    · cases r with
      | expression r => exact .pure _
      | member r => exact halts r
  · exact (tracks_inside hP hl i).bind (fun r q => .passes fun j hp => members hp) halts

/-- Groups track one another. -/
theorem tracks_group : Tracks deep B.Dead (B.Facing i (n + 1))
    (Passes P (B.Settled · (n + 1)) i) (group (levelBelow k) (levelBelow k₂))
    (group (levelBelow k') (levelBelow k₂')) := by
  have members (op : Connective) : Tracks deep B.Dead (B.Begins i (n + 1))
      (Passes P (B.Settled · (n + 1)) i) _ _ := tracks_groupMembers hP hl hl₂ op
  rw [group_members, group_members]
  refine tracks_trivia.step fun _ =>
    (tracks_lexical lexical_connective uniform_connective).step fun op => ?_
  intro cs ds hr
  obtain facing | gate := hr.begins
  · refine (tracks_trivia.step fun _ => ?_) cs ds facing
    exact tracks_closing.peek.optional_bind
      (fun _ _ => .pure fun _ _ h => ⟨i, hP.junction .nil, .inl h.facing⟩)
      ((members op).starting fun _ _ h => .inl h.facing) fun _ => .of_never
  · have none {cs : List Char} (h : ∀ u, skipTrivia cs ≠ ')' :: u) :
        optional (peek (char ')')) (skipTrivia cs) = .ok none (skipTrivia cs) :=
      optional_of_refuses (refuses_char h).peek
    obtain ⟨-, mid, first⟩ := gate.dead
    rw [trivia_bind, bind_ok (none first.startsOperand.ne_closing)]
    obtain doomed | starts := gate.cases
    · exact .doomed (doomed_groupMembers (fun k => unary_skipTrivia k cs ▸ doomed k) op)
    · rw [trivia_bind, bind_ok (none starts.ne_closing)]
      exact members op _ _ (Begins.skip (.inr gate))

end

section

variable (hl : Lower B P deep k k')

include hP hl

/-- Behind an opening parenthesis the pair of `NOT` is read with the expression that it starts, and
so is what stands there without it. -/
theorem tracks_headless (h : Headless cs ds) (gate : B.AtGate i (n + 1) cs ds) :
    (inParentheses (levelBelow k) (levelBelow (k - 1)) cs).Tracks deep B.Dead
      (Passes P (B.Settled · n) i) (inParentheses (levelBelow k') (levelBelow (k' - 1)) ds) := by
  have expression : Tracks deep B.Dead (B.Begins i (n + 1)) (Passes P (B.Settled · n) i)
      (do let r ← commit (expression (levelBelow k)); punctuation ')'; return r)
      (do let r ← commit (expression (levelBelow k')); punctuation ')'; return r) :=
    (tracks_inside hP hl i).commit.bind (fun _ _ => .passes fun _ hp => tracks_closed hp) halts_closed
  have tracks := expression cs ds (.inr gate)
  have plain : (group (levelBelow k') (levelBelow (k' - 1))).Refuses ds :=
    Refuses.of_bind (p := trivia) rfl ((refuses_connective h.plain).bind _)
  rw [inParentheses_of_refuses plain]
  cases hg : group (levelBelow k) (levelBelow (k - 1)) cs with
  | ok r rest =>
      rw [bind_ok (commit_ok (h.alone hg))] at tracks
      rwa [inParentheses_of_ok hg]
  | fail f rest =>
      cases hf : f.committed with
      | true =>
          have stops : (group (levelBelow k) (levelBelow (k - 1)) cs).Yields none [] :=
            ⟨f, rest, hg, hf⟩
          exact .doomed (doomed_bind_of_yields (optional_yields stops))
      | false => rwa [inParentheses_of_refuses ⟨f, rest, hg, hf⟩]

variable (hl₂ : Lower B P deep (k - 1) (k' - 1))

include hl₂

/-- Rules in parentheses track one another. -/
theorem tracks_parenthesized : Tracks deep B.Dead (B.Ahead i n) (Passes P (B.Settled · n) i)
    (parenthesized (levelBelow k) (levelBelow (k - 1)))
    (parenthesized (levelBelow k') (levelBelow (k' - 1))) := by
  refine tracks_opening.step fun _ cs ds hr => ?_
  obtain facing | ⟨headless, gate⟩ := hr.facing_or_headless
  · refine (tracks_group hP hl hl₂).optional_bind (fun r q => .passes fun j hp => ?_) ?_ halts_closed
      cs ds facing
    · exact tracks_closed hp
    · refine Tracks.bind (D := B.Dead) ?_ (fun r q => .passes fun j hp => tracks_closed hp) halts_closed
      exact (tracks_inside hP hl i).commit.starting fun _ _ => .inl
  · exact tracks_headless hP hl headless gate

end

/-- Names that go together name calls of one form. -/
theorem callForm_of_names {a b : String} (h : B.Names a b) : callForm b = callForm a := by
  obtain rfl | ⟨w, w', hw, rfl, rfl⟩ := h
  · rfl
  · obtain ⟨op, kw, kw'⟩ := B.same_keyword hw
    exact (callForm_of_ofKeyword? kw').trans (callForm_of_ofKeyword? kw).symm

include hP in
/-- What starts with a name tracks itself. -/
theorem tracks_named (hl : Lower B P deep k k') : Tracks deep B.Dead (B.Ahead i n)
    (Passes P (B.Settled · n) i) (named (levelBelow k)) (named (levelBelow k')) := by
  refine (tracks_naming naming_nameString).andThen fun a b => ?_
  rintro cs ds ⟨⟨hn, hc⟩, hr⟩
  obtain facing | ⟨-, -, ended, -⟩ | ⟨-, gate⟩ := hr.cases
  · have call : Tracks deep Never (B.Aligned true i (n + 1)) (Passes P (B.Aligned false · n) i)
        (callBody (expression (levelBelow k)) a) (callBody (expression (levelBelow k')) b) :=
      (tracks_callBody hP (fun i => tracks_inside hP hl i)
        (fun _ => keeps_expression (keeps_levelBelow k))
        (fun _ => keeps_expression (keeps_levelBelow k')) hn (callForm_of_names hn)).starting
          fun _ _ => Aligned.outside
    have rest : Tracks deep Never
        (fun cs ds => (a ≠ b → comparison.Refuses (skipTrivia cs)) ∧ B.Facing i n cs ds)
        (Passes P (B.Aligned false · n) i) (conditionRest a) (conditionRest b) := by
      rintro cs ds ⟨hc, h⟩
      by_cases e : a = b
      · exact e ▸ tracks_conditionRest hP a cs ds h.aligned
      · exact .doomed (doomed_conditionRest (hc e) a)
    refine tracks_settling (Tracks.optional_bindSame ?_ (fun _ => call) rest fun _ => .of_never)
      cs ds ⟨hc, facing⟩
    exact (tracks_trivia.step fun _ => tracks_opening).starting fun _ _ => And.right
  · exact .doomed (doomed_name (ended ▸ wordless_comparison.ends) (refuses_spaced fun r e => by
      rw [ended] at e; cases e) a)
  · obtain ⟨-, mid, first⟩ := gate.dead
    exact .doomed (doomed_name (first.refuses wordless_comparison)
      (first.refuses (wordless_char (by decide))) a)

section

variable (hl : Lower B P deep k k') (hl₂ : Lower B P deep (k - 1) (k' - 1))

include hP hl hl₂

/-- Primary rules track one another. -/
theorem tracks_primary : Tracks deep B.Dead (B.Facing i n) (Passes P (B.Settled · n) i)
    (primary (levelBelow k) (levelBelow (k - 1)))
    (primary (levelBelow k') (levelBelow (k' - 1))) := by
  have reference : Tracks deep B.Dead (B.Ahead i n) (Passes P (B.Settled · n) i) referenceCondition
      referenceCondition :=
    tracks_settling ((tracks_lexical lexical_fieldReference wordless_fieldReference.uniform).step
      fun s => tracks_conditionRest hP s)
  exact tracks_trivia.step fun _ => ((tracks_parenthesized hP hl hl₂).orElse
    (reference.orElse (tracks_named hP hl))).expecting "expression"

/-- Operands track one another. -/
theorem tracks_operandWith : Tracks deep B.Dead (B.Facing i n) (Passes P (B.Settled · n) i)
    (operandWith (levelBelow k) (levelBelow (k - 1)))
    (operandWith (levelBelow k') (levelBelow (k' - 1))) := by
  refine tracks_trivia.step fun _ => ?_
  refine (tracks_lexical (lexical_keyword .not) (uniform_keyword .not)).optional_bindSame
    (fun _ => ?_) ?_ fun _ => .of_never
  · have below : Tracks deep B.Dead (B.Aligned false i n) (Passes P (B.Settled · n) i)
        (nested (levelBelow k) commit) (nested (levelBelow k') commit) :=
      tracks_nested hl fun _ _ h => (h n).commit i
    exact below.bind (fun r q => .passes fun j hp =>
      .pure fun _ _ h => ⟨j, hP.junction (.cons hp .nil), h⟩) fun _ => .pure _
  · exact (tracks_primary hP hl hl₂).starting fun _ _ => Ahead.facing

end

end Bridge

/-! ### Operands -/

open Bridge

/-- **An operand on the second text tracks that on the first**, with any number of levels left; it
runs out of them only if that is allowed and there are fewer. -/
theorem operand_unary (hP : Fits B P) {k k' : Nat} (hd : k' < k → deep) (n : Nat) :
    Operand B P deep n (unary k) (unary k') := by
  induction k using Nat.strong_induction_on generalizing k' n with
  | _ k ih =>
      have lower {m m' : Nat} (hm : m ≤ k) (hd : m' < m → deep) : Lower B P deep m m' := by
        match m, m' with
        | 0, _ => trivial
        | m + 1, 0 => exact hd (Nat.succ_pos m)
        | m + 1, m' + 1 => exact fun n => ih m hm (fun h => hd (Nat.succ_lt_succ h)) n
      refine ⟨fun i => ?_, fun cs hc => ?_, fun text m => keeps_unary k m,
        fun text m => keeps_unary k' m⟩
      · rintro cs ds (facing | ⟨rfl, hg, mid, b, first, second, t⟩)
        · rw [unary_eq, unary_eq]
          exact tracks_operandWith hP (lower (Nat.le_refl k) hd)
            (lower (Nat.sub_le k 1) fun h => hd (by omega)) cs ds facing
        · by_cases hb : StartsOperand b
          · refine tracks_pair hP hg first second ?_
            rintro m rfl
            have begins : B.Begins true n b ds := by
              obtain facing | ⟨-, -, ended, -⟩ | ⟨-, e, -⟩ := (t hb).cases
              · exact .inl facing
              · obtain ⟨c, t, e, -⟩ := hb
                rw [ended] at e
                cases e
              · cases e
            exact (ih m (by omega) (fun h => hd (by omega)) n).tracks true b ds begins
          · exact .doomed (doomed_unary_of_not first second hb)
      · rw [unary_eq]
        exact (refuses_operandWith_nil hc).fails

end Rulebook.Dsl
