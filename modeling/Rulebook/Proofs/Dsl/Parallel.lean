import Rulebook.Proofs.Dsl.Productions

/-!
# Rulebook — Proofs — Dsl — Parallel

Two texts with the same lexemes, whatever blanks and comments stand between them, up to the place
where every parenthesis is closed and the first text ends; the second one may go on there
(`Parallel`).  Operands and expressions are read alike, as far as the second reader has levels left
(`Facing.unary`, `Facing.expression`).
-/

namespace Rulebook.Dsl

open Grammar

/-- The second text has the lexemes of the first, which has the closing parentheses for `n` open
ones and a partner for each of its own; behind them the second text goes on with `tail`. -/
inductive Parallel (tail : List Char) : Nat → List Char → List Char → Prop where
  | finish {cs ds : List Char} (hc : skipTrivia cs = []) (hd : skipTrivia ds = tail) :
      Parallel tail 0 cs ds
  | lexeme {n m : Nat} {l : Lexeme} {cs ds cs' ds' : List Char}
      (hc : skipTrivia cs = l.text ++ cs') (hd : skipTrivia ds = l.text ++ ds')
      (sc : l.Stands cs') (sd : l.Stands ds') (hn : n + l.opened = m + l.closed)
      (t : Parallel tail m cs' ds') : Parallel tail n cs ds

/-- Both texts start with the same lexeme, after blanks and comments. -/
structure Facing (tail : List Char) (n : Nat) (cs ds : List Char) : Prop where
  parallel : Parallel tail n cs ds
  ne_nil : skipTrivia cs ≠ []

variable {tail cs ds cs' ds' : List Char} {n : Nat}

/-! ### What comes next -/

/-- What has the same lexemes goes on in parallel whatever is skipped first. -/
theorem Parallel.congr (h : Parallel tail n cs ds) (hc : skipTrivia cs' = skipTrivia cs)
    (hd : skipTrivia ds' = skipTrivia ds) : Parallel tail n cs' ds' := by
  cases h with
  | finish ec ed => exact .finish (hc.trans ec) (hd.trans ed)
  | lexeme ec ed sc sd hn t => exact .lexeme (hc.trans ec) (hd.trans ed) sc sd hn t

theorem Parallel.cases (h : Parallel tail n cs ds) :
    Facing tail n cs ds ∨ (n = 0 ∧ skipTrivia cs = [] ∧ skipTrivia ds = tail) := by
  have whole := h
  cases h with
  | finish hc hd => exact .inr ⟨rfl, hc, hd⟩
  | lexeme hc hd sc sd hn t =>
      obtain ⟨c, u, e, -⟩ := sc.exists_cons
      refine .inl ⟨whole, ?_⟩
      rw [hc, e]
      exact List.cons_ne_nil _ _

/-- Where the first text ends, the second one goes on with its tail. -/
theorem Parallel.tail_of_nil (h : Parallel tail n cs ds) (hc : skipTrivia cs = []) :
    skipTrivia ds = tail := by
  obtain h | ⟨-, -, hd⟩ := h.cases
  · exact absurd hc h.ne_nil
  · exact hd

theorem Facing.exists_lexeme (h : Facing tail n cs ds) : ∃ (l : Lexeme) (m : Nat) (cs' ds' : List Char),
    skipTrivia cs = l.text ++ cs' ∧ skipTrivia ds = l.text ++ ds' ∧ l.Stands cs' ∧ l.Stands ds' ∧
      n + l.opened = m + l.closed ∧ Parallel tail m cs' ds' := by
  obtain ⟨parallel, hne⟩ := h
  cases parallel with
  | finish hc hd => exact absurd hc hne
  | lexeme hc hd sc sd hn t => exact ⟨_, _, _, _, hc, hd, sc, sd, hn, t⟩

/-- Both texts start with the same character, which is neither a blank nor a mark. -/
theorem Facing.exists_solid (h : Facing tail n cs ds) :
    ∃ c t u, skipTrivia cs = c :: t ∧ skipTrivia ds = c :: u ∧ isSolid c = true := by
  obtain ⟨l, m, cs', ds', hc, hd, sc, -, -, -⟩ := h.exists_lexeme
  obtain ⟨c, u, e, hs⟩ := sc.exists_cons
  exact ⟨c, _, _, by rw [hc, e, List.cons_append], by rw [hd, e, List.cons_append],
    Lexeme.isSolid_of_starts hs⟩

/-! ### Both texts as one that differs in nothing -/

/-- The second text has the lexemes of the first. -/
def Bridge.plain (tail : List Char) : Bridge where
  respells _ _ := False
  same_keyword := False.elim
  gated := False
  ends _ := True
  tail := tail

theorem Parallel.aligned (h : Parallel tail n cs ds) {inside i : Bool} :
    (Bridge.plain tail).Aligned inside i n cs ds := by
  induction h generalizing inside with
  | finish hc hd => exact .finish trivial hc hd
  | lexeme hc hd sc sd hn t ih => exact .lexeme hc hd sc sd (.same _) hn ih

theorem Bridge.Aligned.parallel {inside i : Bool}
    (h : (Bridge.plain tail).Aligned inside i n cs ds) : Parallel tail n cs ds := by
  induction h with
  | finish hi hc hd => exact .finish hc hd
  | lexeme hc hd sc sd hf hn t ih =>
      cases hf with
      | same => exact .lexeme hc hd sc sd hn ih
      | respelt hw _ => exact hw.elim
  | gate hg => exact hg.elim

theorem Facing.begins (h : Facing tail n cs ds) {i : Bool} :
    (Bridge.plain tail).Begins i n cs ds := by
  have aligned : (Bridge.plain tail).Aligned true i n cs ds := h.parallel.aligned
  obtain facing | ⟨-, -, nothing, -⟩ | ⟨-, -, hg, -⟩ := aligned.cases
  · exact .inl facing
  · exact absurd nothing h.ne_nil
  · exact hg.elim

/-- The rules are the same. -/
def PassesSame (i j : Bool) (r q : Rule) : Prop := i = j ∧ r = q

/-- What the grammar builds goes along with being the same. -/
theorem fits_plain : Fits (Bridge.plain tail) PassesSame where
  atom h := ⟨rfl, by rw [h.eq fun _ _ _ h => (h.resolve_right nofun).symm]⟩
  scope h := by
    rintro ⟨rfl, rfl⟩
    exact ⟨rfl, by rw [h.eq fun _ _ _ h => (h.resolve_right nofun).symm]⟩
  junction h := by
    obtain ⟨rfl, same⟩ := forall₂_of_chained h
    rw [List.forall₂_eq_eq_eq] at same
    exact ⟨rfl, by rw [same]⟩
  cancel := False.elim

/-! ### Reading both texts -/

variable {deep : Prop} {k k' : Nat} {r : Rule} {rest : List Char}

/-- What tracks a reader on the same lexemes reads the same value, or it runs out of levels. -/
theorem tracks_parallel {α : Type} {p q : Grammar α} {a : α}
    {S : α → α → List Char → List Char → Prop}
    (h : (p cs).Tracks deep (Bridge.plain tail).Dead S (q ds)) (hp : p cs = .ok a rest)
    (hS : ∀ b rest', S a b rest rest' → a = b ∧ Parallel tail n rest rest') :
    (∃ rest', q ds = .ok a rest' ∧ Parallel tail n rest rest') ∨ deep ∧ (q ds).TooDeep := by
  obtain ⟨b, rest', hq, hs⟩ | deep := tracks_ok h hp fun dead => dead.1
  · obtain ⟨rfl, parallel⟩ := hS b rest' hs
    exact .inl ⟨rest', hq, parallel⟩
  · exact .inr deep

/-- Where rules are related only if they are the same, settled texts are parallel. -/
theorem parallel_of_passes {a b : Rule} {rest' : List Char}
    (h : Passes PassesSame ((Bridge.plain tail).Settled · n) false a b rest rest') :
    a = b ∧ Parallel tail n rest rest' := by
  obtain ⟨j, ⟨-, same⟩, settled⟩ := h
  have aligned : (Bridge.plain tail).Aligned false j n rest rest' := settled.aligned
  exact ⟨same, aligned.parallel⟩

/-- An operand is read alike, with at least as many levels left or down to the last one. -/
theorem Facing.unary (h : Facing tail n cs ds) (hd : k' < k → deep)
    (hr : Dsl.unary k cs = .ok r rest) :
    (∃ rest', Dsl.unary k' ds = .ok r rest' ∧ Parallel tail n rest rest') ∨
      deep ∧ (Dsl.unary k' ds).TooDeep :=
  tracks_parallel ((operand_unary fits_plain hd n).tracks false cs ds h.begins) hr
    fun _ _ => parallel_of_passes

/-- So is an expression, where the second text goes on with no keyword. -/
theorem Facing.expression (h : Facing tail n cs ds) (hn : n = 0 → Plain tail) (hd : k' < k → deep)
    (hr : Dsl.expression (levelBelow (k + 1)) cs = .ok r rest) :
    (∃ rest', Dsl.expression (levelBelow (k' + 1)) ds = .ok r rest' ∧ Parallel tail n rest rest') ∨
      deep ∧ (Dsl.expression (levelBelow (k' + 1)) ds).TooDeep := by
  have lower : Lower (Bridge.plain tail) PassesSame deep (k + 1) (k' + 1) := fun n =>
    operand_unary fits_plain hd n
  exact tracks_parallel (Bridge.tracks_expression fits_plain hn lower false cs ds h.begins) hr
    fun _ _ => parallel_of_passes

/-- So are the chains around an operand. -/
theorem Parallel.expressionFrom {first : Rule} {m : Nat} (h : Parallel tail n cs ds)
    (hn : n = 0 → Plain tail) (hd : k' < k → deep)
    (hr : Dsl.expressionFrom (Dsl.unary k) first cs = .ok (r, m) rest) :
    (∃ rest', Dsl.expressionFrom (Dsl.unary k') first ds = .ok (r, m) rest' ∧
      Parallel tail n rest rest') ∨
      deep ∧ (Dsl.expressionFrom (Dsl.unary k') first ds).TooDeep := by
  have aligned : (Bridge.plain tail).Aligned true false n cs ds := h.aligned
  have settled := aligned.settled.resolve_right fun dead => dead.1
  have same : PassesSame false false first first := ⟨rfl, rfl⟩
  refine tracks_parallel
    ((operand_unary fits_plain hd n).expressionFrom fits_plain hn same cs ds settled) hr ?_
  rintro ⟨q, m'⟩ rest' ⟨rfl, j, ⟨⟨-, rfl⟩, -⟩, t⟩
  have aligned : (Bridge.plain tail).Aligned false j n rest rest' := t.aligned
  exact ⟨rfl, aligned.parallel⟩

end Rulebook.Dsl
