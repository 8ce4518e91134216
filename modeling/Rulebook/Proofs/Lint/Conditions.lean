import Rulebook.Proofs.Lint.Checks
import Rulebook.Proofs.Lint.Consumed
import Rulebook.Proofs.Rule.Tree

/-!
# Rulebook — Proofs — Lint — Conditions

Where the conditions of an accepted text are.  Three tokens in a row that read as a field, a
comparison and an operand are a condition of the rule, and each of its conditions is three such
tokens (`map_conditionsAt`).  The linter looks at two tokens only, and takes a keyword for a field
where the field or function behind it has the name of a comparison (`misread`); where that is so
nowhere, it finds the places of the conditions, and only there.

* `lint_located`: whether findings are about the conditions at their places.
-/

namespace Rulebook.Lint

open Dsl (Grammar)

/-! ### Conditions and their places -/

/-- The conditions of a rule, each before those behind it. -/
def conditions (r : Rule) : List Condition := r.preorder.filterMap condition?

/-- What the reader reads the token as, if it reads the whole of it. -/
def Token.reads? (p : Grammar α) (t : Token) : Option α :=
  match p t.text with
  | .ok a [] => some a
  | _ => none

/-- The condition that three tokens are. -/
def conditionAt? (t u v : Token) : Option Condition := do
  let field ← t.reads? Dsl.fieldName
  let comparison ← u.reads? Dsl.comparison
  let (value, kind) ← v.reads? Dsl.operand
  return ⟨field, comparison, value, kind⟩

/-- The conditions that are three tokens in a row, each with the byte offset at which it starts. -/
def conditionsAt : List Token → List (Nat × Condition)
  | t :: u :: v :: rest =>
    ((conditionAt? t u v).map fun c => (t.start, c)).toList ++ conditionsAt (u :: v :: rest)
  | _ => []

/-- Whether the tokens start with a condition. -/
def startsCondition : List Token → Bool
  | t :: u :: v :: _ => (conditionAt? t u v).isSome
  | _ => false

/-- Whether a keyword that is not the field of a condition stands in front of the name of a
comparison. -/
def misread : List Token → Bool
  | [] => false
  | t :: ts =>
    t.connective?.isSome && ts.head?.any Token.isComparison && !startsCondition (t :: ts) ||
      misread ts

/-- The conditions of a junction are those of its members, in order. -/
theorem conditions_junction (j : Junction) (rs : List Rule) (n : Option Metadata) :
    conditions (.junction j rs n) = rs.flatMap conditions := by
  have whole : conditions (.junction j rs n) = (Rule.preorderAll rs).filterMap condition? := rfl
  rw [whole, Rule.preorderAll_eq_flatMap, List.filterMap_flatMap]
  rfl

/-- An atom that is no condition has none. -/
theorem conditions_atom {a : Atom} {n : Option Metadata} (h : condition? (.atom a none) = none) :
    conditions (.atom a n) = [] := by
  cases a with
  | condition c => cases h
  | _ => rfl

/-- Records change nothing about the conditions of a rule. -/
theorem conditions_bare (r : Rule) : conditions r.bare = conditions r := by
  have same : condition? ∘ Rule.bare = condition? := by
    funext r
    rcases r with ⟨_ | _, _⟩ | _ | _ <;> rfl
  rw [conditions, Rule.preorder_bare, List.filterMap_map, same]
  rfl

/-! ### Tokens that are lexemes -/

/-- The token is a lexeme. -/
def Token.IsLexeme (t : Token) : Prop :=
  ∃ (l : Dsl.Lexeme) (offset : Nat), t = tokenOf l offset ∧ l.Stands []

section

variable {α : Type} {p : Grammar α} {a : α} {t u v : Token}

/-- A value that is spelled is read from the token. -/
theorem Token.Spells.reads? (h : t.Spells p a) : t.reads? p = some a := by
  obtain ⟨l, offset, rfl, -, h⟩ := h
  have read : p (tokenOf l offset).text = .ok a [] := h
  rw [Token.reads?, read]

/-- A value that is read from the whole of a lexeme is spelled by it. -/
theorem Token.IsLexeme.spells (ht : t.IsLexeme) (h : t.reads? p = some a) : t.Spells p a := by
  obtain ⟨l, offset, rfl, hs⟩ := ht
  refine ⟨l, offset, rfl, hs, ?_⟩
  rw [Token.reads?] at h
  split at h
  · rename_i read
    cases h
    exact read
  · cases h

/-- The tokens of a text are lexemes. -/
theorem Tokenized.isLexeme {n offset : Nat} {cs : List Char} {ts : List Token}
    (h : Tokenized n offset cs ts) : ∀ t ∈ ts, t.IsLexeme := by
  induction h with
  | nil => exact List.forall_mem_nil _
  | blank _ _ ih => exact ih
  | comment _ _ _ ih => exact ih
  | token hs _ _ ih =>
      exact List.forall_mem_cons.mpr ⟨⟨_, _, rfl, Stands.resume hs ⟨.inr nofun, nofun⟩⟩, ih⟩

/-- Tokens that spell the parts of a condition are the condition. -/
theorem conditionAt?_of_spells {c : Condition} (ht : t.Spells Dsl.fieldName c.field)
    (hu : u.Spells Dsl.comparison c.comparison) (hv : v.Spells Dsl.operand (c.value, c.kind)) :
    conditionAt? t u v = some c := by
  rw [conditionAt?, ht.reads?, hu.reads?, hv.reads?]
  rfl

/-- What a condition is made of. -/
theorem of_conditionAt? (ht : t.IsLexeme) (hu : u.IsLexeme) (hv : v.IsLexeme)
    (h : (conditionAt? t u v).isSome = true) :
    t.isField = true ∧ u.isComparison = true ∧ v.isArgument = true ∧ v.isComparison = false := by
  obtain ⟨c, h⟩ := Option.isSome_iff_exists.mp h
  obtain ⟨field, hf, h⟩ := Option.bind_eq_some_iff.mp h
  obtain ⟨comparison, hc, h⟩ := Option.bind_eq_some_iff.mp h
  obtain ⟨⟨value, kind⟩, ho, -⟩ := Option.bind_eq_some_iff.mp h
  exact ⟨spells_fieldName (ht.spells hf), spells_comparison (hu.spells hc),
    spells_operand (hv.spells ho)⟩

end

/-! ### Conditions and other tokens -/

/-- Tokens taken apart into conditions, with their places, and other tokens: those that are no field
or in front of no comparison, and keywords in front of a field or a function that has the name of a
comparison. -/
inductive Segmented : List (Nat × Condition) → List Token → Prop where
  | nil : Segmented [] []
  | condition {c : Condition} {t u v : Token} {ps : List (Nat × Condition)} {ts : List Token}
      (ht : t.Spells Dsl.fieldName c.field) (hu : u.Spells Dsl.comparison c.comparison)
      (hv : v.Spells Dsl.operand (c.value, c.kind)) (hn : ∀ w ∈ ts.head?, w.isComparison = false)
      (h : Segmented ps ts) : Segmented ((t.start, c) :: ps) (t :: u :: v :: ts)
  | other {t : Token} {ps : List (Nat × Condition)} {ts : List Token}
      (ht : t.isField = false ∨ ∀ u ∈ ts.head?, u.isComparison = false) (h : Segmented ps ts) :
      Segmented ps (t :: ts)
  | keyword {t u v : Token} {ps : List (Nat × Condition)} {ts : List Token}
      (ht : t.connective?.isSome = true) (hu : u.isComparison = true)
      (hv : v.isComparison = true ∨ v.kind = .opening) (h : Segmented ps (u :: v :: ts)) :
      Segmented ps (t :: u :: v :: ts)

section

variable {ps : List (Nat × Condition)} {t : Token} {ts : List Token}

/-- Where lexemes start with a condition, there is a field, a comparison and an operand, which is no
comparison itself. -/
theorem of_startsCondition {u v : Token} (hl : ∀ w ∈ t :: u :: v :: ts, w.IsLexeme)
    (h : ¬startsCondition (t :: u :: v :: ts) = false) :
    t.isField = true ∧ u.isComparison = true ∧ v.isArgument = true ∧ v.isComparison = false :=
  of_conditionAt? (hl t (by simp)) (hl u (by simp)) (hl v (by simp)) (Bool.of_not_eq_false h)

/-- Three tokens are no condition where the second one is no comparison. -/
theorem startsCondition_eq_false (hl : ∀ w ∈ t :: ts, w.IsLexeme)
    (h : t.isField = false ∨ ∀ u ∈ ts.head?, u.isComparison = false) :
    startsCondition (t :: ts) = false := by
  match ts, hl, h with
  | [], _, _ => rfl
  | [_], _, _ => rfl
  | u :: v :: rest, hl, h =>
      by_contra some
      have parts := of_startsCondition hl some
      obtain h | h := h
      · rw [parts.1] at h
        cases h
      · rw [h u rfl] at parts
        cases parts.2.1

/-- No condition starts where the operand would be a comparison or a parenthesis. -/
theorem startsCondition_keyword {u v : Token} (hl : ∀ w ∈ t :: u :: v :: ts, w.IsLexeme)
    (hv : v.isComparison = true ∨ v.kind = .opening) :
    startsCondition (t :: u :: v :: ts) = false := by
  by_contra some
  have parts := of_startsCondition hl some
  obtain hv | hv := hv
  · rw [hv] at parts
    cases parts.2.2.2
  · have none : v.isArgument = false := by simp [Token.isArgument, Token.isField, hv]
    rw [none] at parts
    cases parts.2.2.1

/-- Tokens that start with no condition have those behind the first one. -/
theorem conditionsAt_cons (h : startsCondition (t :: ts) = false) :
    conditionsAt (t :: ts) = conditionsAt ts := by
  match ts, h with
  | [], _ => rfl
  | [_], _ => rfl
  | u :: v :: rest, h =>
      have none : conditionAt? t u v = none := by simpa [startsCondition] using h
      rw [conditionsAt, none]
      rfl

/-- **The conditions among the tokens are those that are three tokens in a row.** -/
theorem Segmented.conditionsAt_eq (h : Segmented ps ts) (hl : ∀ w ∈ ts, w.IsLexeme) :
    conditionsAt ts = ps := by
  induction h with
  | nil => rfl
  | @condition c t u v ps ts ht hu hv hn h ih =>
      have behind : conditionsAt (u :: v :: ts) = conditionsAt ts := by
        rw [conditionsAt_cons (startsCondition_eq_false (fun w hw => hl w (List.mem_cons_of_mem _ hw))
            (.inr (by simp [(spells_operand hv).2]))),
          conditionsAt_cons (startsCondition_eq_false
            (fun w hw => hl w (List.mem_cons_of_mem _ (List.mem_cons_of_mem _ hw))) (.inr hn))]
      rw [conditionsAt, conditionAt?_of_spells ht hu hv, behind, ih fun w hw => hl w (by simp [hw])]
      rfl
  | other ht h ih =>
      rw [conditionsAt_cons (startsCondition_eq_false hl ht),
        ih fun w hw => hl w (List.mem_cons_of_mem _ hw)]
  | keyword ht hu hv h ih =>
      rw [conditionsAt_cons (startsCondition_keyword hl hv),
        ih fun w hw => hl w (List.mem_cons_of_mem _ hw)]

/-! ### What the linter finds -/

/-- A token that is no field, or stands before no comparison, is not reported as the place of a
condition. -/
theorem conditionOffsets_cons (h : t.isField = false ∨ ∀ u ∈ ts.head?, u.isComparison = false) :
    conditionOffsets (t :: ts) = conditionOffsets ts := by
  have none {u : Token} (h : t.isField = false ∨ ∀ w ∈ (u :: ts).head?, w.isComparison = false) :
      ¬ (t.isField && u.isComparison) = true := by
    obtain h | h := h
    · simp [h]
    · simp [h u rfl]
  match ts, h with
  | [], _ => rfl
  | [u], h => exact if_neg (none h)
  | u :: v :: rest, h => exact if_neg (none h)

/-- A field before a comparison is reported as the place of a condition, and the search goes on
behind the operand. -/
theorem conditionOffsets_triple {u v : Token} (ht : t.isField = true) (hu : u.isComparison = true) :
    conditionOffsets (t :: u :: v :: ts) = t.start :: conditionOffsets ts :=
  if_pos (Bool.and_eq_true_iff.mpr ⟨ht, hu⟩)

/-- A token that is no field, or stands before no comparison, is not misread. -/
theorem misread_cons (h : t.isField = false ∨ ∀ u ∈ ts.head?, u.isComparison = false) :
    misread (t :: ts) = misread ts := by
  have none : (t.connective?.isSome && ts.head?.any Token.isComparison) = false := by
    obtain h | h := h
    · have other : t.connective? = none := by
        cases e : t.connective? with
        | none => rfl
        | some op =>
            rw [isField_of_kind (kind_of_connective? e)] at h
            cases h
      rw [other]
      rfl
    · cases ts with
      | nil => simp
      | cons u ts => simp [h u rfl]
  rw [misread, none]
  rfl

/-- Each place is the start of one of the tokens. -/
theorem Segmented.mem_starts (h : Segmented ps ts) : ∀ p ∈ ps, ∃ t ∈ ts, p.1 = t.start := by
  induction h with
  | nil => exact List.forall_mem_nil _
  | condition _ _ _ _ _ ih =>
      refine List.forall_mem_cons.mpr ⟨⟨_, List.mem_cons_self, rfl⟩, fun p hp => ?_⟩
      obtain ⟨w, hw, e⟩ := ih p hp
      exact ⟨w, by simp [hw], e⟩
  | other _ _ ih => exact fun p hp => (ih p hp).imp fun w h => ⟨List.mem_cons_of_mem _ h.1, h.2⟩
  | keyword _ _ _ _ ih =>
      exact fun p hp => (ih p hp).imp fun w h => ⟨List.mem_cons_of_mem _ h.1, h.2⟩

/-- **The linter finds the places of the conditions just if it takes no keyword for a field.** -/
theorem Segmented.conditionOffsets_iff (h : Segmented ps ts) (hl : ∀ w ∈ ts, w.IsLexeme)
    (ho : ts.Pairwise fun t u => t.start < u.start) :
    conditionOffsets ts = ps.map Prod.fst ↔ misread ts = false := by
  induction h with
  | nil => simp [conditionOffsets, misread]
  | @condition c t u v ps ts ht hu hv hn h ih =>
      have starts : startsCondition (t :: u :: v :: ts) = true := by
        rw [startsCondition, conditionAt?_of_spells ht hu hv]
        rfl
      have behind : misread (u :: v :: ts) = misread ts :=
        (misread_cons (.inr (by simp [(spells_operand hv).2]))).trans (misread_cons (.inr hn))
      rw [conditionOffsets_triple (spells_fieldName ht) (spells_comparison hu), misread, starts,
        behind, Bool.not_true, Bool.and_false, Bool.false_or, List.map_cons, List.cons_inj_right]
      exact ih (fun w hw => hl w (by simp [hw])) ho.of_cons.of_cons.of_cons
  | other ht h ih =>
      rw [conditionOffsets_cons ht, misread_cons ht]
      exact ih (fun w hw => hl w (List.mem_cons_of_mem _ hw)) ho.of_cons
  | @keyword t u v ps ts ht hu hv h ih =>
      obtain ⟨op, hop⟩ := Option.isSome_iff_exists.mp ht
      have field : t.isField = true := isField_of_kind (kind_of_connective? hop)
      have taken : misread (t :: u :: v :: ts) = true := by
        rw [misread, startsCondition_keyword hl hv]
        simp [ht, hu]
      rw [conditionOffsets_triple field hu, taken]
      refine iff_of_false (fun e => ?_) (by decide)
      -- the place of the keyword is in front of that of every condition
      cases ps with
      | nil => cases e
      | cons p ps =>
          obtain ⟨w, hw, start⟩ := h.mem_starts p List.mem_cons_self
          have before := (List.pairwise_cons.mp ho).1 w hw
          rw [List.map_cons, List.cons.injEq, start] at e
          omega

end

/-! ### The tokens of a rule -/

/-- The tokens are taken apart in front of whatever is no comparison. -/
def Segments (ps : List (Nat × Condition)) (ts : List Token) : Prop :=
  ∀ qs later, (∀ u ∈ later.head?, u.isComparison = false) → Segmented qs later →
    Segmented (ps ++ qs) (ts ++ later)

/-- The tokens do not start with a comparison. -/
def Detached (ts : List Token) : Prop := ∀ u ∈ ts.head?, u.isComparison = false

/-- Tokens of other kinds than words and symbols are no comparisons. -/
theorem isComparison_of_kind {t : Token} {k : TokenKind} (h : t.kind = k)
    (hk : k ∉ [.word, .comparison]) : t.isComparison = false := by
  simp only [List.mem_cons, List.not_mem_nil, or_false, not_or] at hk
  simp [Token.isComparison, h, hk]

/-- No keyword is a comparison. -/
theorem isComparison_of_connective? {t : Token} {op : Connective} (h : t.connective? = some op) :
    t.isComparison = false := by
  have others : ∀ w ∈ ["contains", "startsWith", "endsWith"],
      Connective.ofKeyword? w.toList = none := by decide
  have kind := kind_of_connective? h
  rw [Token.connective?, if_pos kind] at h
  have other {w : String} (hw : w ∈ ["contains", "startsWith", "endsWith"]) :
      t.text ≠ w.toList := by
    intro e
    rw [e, others w hw] at h
    cases h
  have words : t.text ≠ "contains".toList ∧ t.text ≠ "startsWith".toList ∧
      t.text ≠ "endsWith".toList :=
    ⟨other (by decide), other (by decide), other (by decide)⟩
  rw [Token.isComparison, kind, decide_eq_false words.1, decide_eq_false words.2.1,
    decide_eq_false words.2.2]
  rfl

/-- Tokens of other kinds than words and references are no fields. -/
theorem isField_of_notMem {t : Token} (h : t.kind ∉ [.word, .fieldReference]) :
    t.isField = false := by
  simp only [List.mem_cons, List.not_mem_nil, or_false, not_or] at h
  simp [Token.isField, h]

namespace Segments

variable {ps qs : List (Nat × Condition)} {t : Token} {ts us : List Token}

theorem nil : Segments [] [] := fun _ _ _ h => h

/-- Tokens are taken apart part by part, if the second part does not start with a comparison. -/
theorem append (h : Segments ps ts) (hd : Detached us) (h' : Segments qs us) :
    Segments (ps ++ qs) (ts ++ us) := by
  intro rs later hn hl
  rw [List.append_assoc, List.append_assoc]
  refine h _ _ ?_ (h' _ _ hn hl)
  cases us with
  | nil => exact hn
  | cons u us => exact hd

/-- A token in front of no comparison. -/
theorem cons (hd : Detached ts) (h : Segments ps ts) : Segments ps (t :: ts) := by
  intro qs later hn hl
  refine .other (.inr ?_) (h _ _ hn hl)
  cases ts with
  | nil => exact hn
  | cons u us => exact hd

/-- A token that is no field. -/
theorem skip (ht : t.kind ∉ [.word, .fieldReference]) (h : Segments ps ts) : Segments ps (t :: ts) :=
  fun _ _ hn hl => .other (.inl (isField_of_notMem ht)) (h _ _ hn hl)

/-- A keyword in front of a rule. -/
theorem keyword {op : Connective} (ht : t.connective? = some op) (hs : Starts ts)
    (h : Segments ps ts) : Segments ps (t :: ts) := by
  intro qs later hn hl
  have behind := h qs later hn hl
  cases hs with
  | opening ho =>
      refine .other (.inr ?_) behind
      rintro w ⟨⟩
      exact isComparison_of_kind ho (by decide)
  | negation hnot _ =>
      refine .other (.inr ?_) behind
      rintro w ⟨⟩
      exact isComparison_of_connective? hnot
  | @name u v rest hu hv =>
      cases hc : u.isComparison with
      | true => exact .keyword (Option.isSome_iff_exists.mpr ⟨op, ht⟩) hc hv.symm behind
      | false =>
          refine .other (.inr ?_) behind
          rintro w ⟨⟩
          exact hc

end Segments

/-- Behind tokens of other kinds than words and symbols nothing starts with a comparison. -/
theorem detached_of_kind {t : Token} {k : TokenKind} (h : t.kind = k) (hk : k ∉ [.word, .comparison])
    (ts : List Token) : Detached (t :: ts) := by
  rintro u ⟨⟩
  exact isComparison_of_kind h hk

/-- There is no condition among arguments. -/
theorem Listed.segments {vs us : List Token} (h : Listed vs) (hd : Detached us)
    (hs : Segments [] us) : Segments [] (vs ++ us) := by
  induction h with
  | single hv => exact .cons hd hs
  | cons hv hc _ ih =>
      simp only [List.mem_cons, List.not_mem_nil, or_false] at hc
      obtain hc | hc := hc <;>
        exact .cons (detached_of_kind hc (by decide) _) (.skip (by simp [hc]) ih)

/-- Rules behind separators, of which the conditions are known. -/
theorem segments_links {links : List Link} (hs : ∀ l ∈ links, l.separator.kind = .comma ∨
      ∃ op, l.separator.connective? = some op) (hr : ∀ l ∈ links, Spelled l.rule l.tokens)
    (hl : ∀ l ∈ links, ∃ ps : List (Nat × Condition), ps.map Prod.snd = conditions l.rule ∧
      Segments ps l.tokens) : Detached (links.flatMap Link.all) ∧ ∃ ps : List (Nat × Condition),
      ps.map Prod.snd = (links.map Link.rule).flatMap conditions ∧
        Segments ps (links.flatMap Link.all) := by
  induction links with
  | nil => exact ⟨nofun, [], rfl, .nil⟩
  | cons l links ih =>
      obtain ⟨hs, hss⟩ := List.forall_mem_cons.mp hs
      obtain ⟨hr, hrs⟩ := List.forall_mem_cons.mp hr
      obtain ⟨⟨ps, hp, segments⟩, hls⟩ := List.forall_mem_cons.mp hl
      obtain ⟨detached, qs, hq, further⟩ := ih hss hrs hls
      have own : Segments ps l.all := by
        obtain comma | ⟨op, keyword⟩ := hs
        · exact .skip (by simp [comma]) segments
        · exact .keyword keyword hr.starts segments
      have first : l.separator.isComparison = false := by
        obtain comma | ⟨op, keyword⟩ := hs
        · exact isComparison_of_kind comma (by decide)
        · exact isComparison_of_connective? keyword
      refine ⟨?_, ps ++ qs, ?_, ?_⟩
      · rintro u ⟨⟩
        exact first
      · rw [List.map_append, hp, hq, List.map_cons, List.flatMap_cons]
      · rw [List.flatMap_cons]
        exact own.append detached further

/-- **The tokens of a rule are taken apart into its conditions and other tokens.** -/
theorem Spelled.segments {r : Rule} {ts : List Token} (h : Spelled r ts) :
    ∃ ps : List (Nat × Condition), ps.map Prod.snd = conditions r ∧ Segments ps ts := by
  -- a word or reference starts a condition only if a comparison comes next
  have apart {e : Token} (he : e.kind ∈ [.opening, .closing, .comma, .other]) (ts : List Token) :
      Detached (e :: ts) := by
    rintro u ⟨⟩
    refine isComparison_of_kind rfl fun few => ?_
    revert he few
    cases e.kind <;> decide
  have closing {ps : List (Nat × Condition)} {ts : List Token} {e : Token} (he : e.kind = .closing)
      (h : Segments ps ts) : Segments ps (ts ++ [e]) := by
    have last : Segments [] [e] := .cons nofun .nil
    simpa using h.append (apart (by simp [he]) []) last
  induction h with
  | @condition c t u v ht hu hv =>
      exact ⟨[(t.start, c)], rfl, fun qs later hn hl => .condition ht hu hv hn hl⟩
  | @call a t o e args ht ho ha he hc =>
      refine ⟨[], (conditions_atom hc).symm, .cons (apart (by simp [ho]) _)
        (.skip (by simp [ho]) (closing he ?_))⟩
      cases ha with
      | none _ => exact .nil
      | one _ _ => exact .cons nofun .nil
      | more _ hc hl _ =>
          have listed := @Listed.segments _ [] hl nofun .nil
          rw [List.append_nil] at listed
          exact .cons (apart (by simp [hc]) _) (.skip (by simp [hc]) listed)
  | @scope s r t o f c e front ts ht ho hf hc hv hr he ih =>
      obtain ⟨ps, hp, segments⟩ := ih
      refine ⟨ps, hp, .cons (apart (by simp [ho]) _) (.skip (by simp [ho])
        (.cons (apart (by simp [hc]) _) (.skip (by simp [hc]) ?_)))⟩
      obtain rfl | ⟨v, c', rfl, -, hc'⟩ := hv
      · exact closing he segments
      · exact .cons (apart (by simp [hc']) _) (.skip (by simp [hc']) (closing he segments))
  | @quota kind count r t o n c b b' e ts links ht ho hn hc hb hr hs hl hb' he ih ihs =>
      obtain ⟨ps, hp, segments⟩ := ih
      obtain ⟨detached, qs, hq, further⟩ := segments_links (fun l hm => .inl (hs l hm)) hl ihs
      have bracket : Segments [] [b', e] := .skip (by simp [hb']) (closing he .nil)
      have members := (segments.append detached further).append (apart (by simp [hb']) _) bracket
      rw [List.append_nil, List.append_assoc] at members
      refine ⟨ps ++ qs, ?_, .cons (apart (by simp [ho]) _) (.skip (by simp [ho])
        (.skip (by simp [hn]) (.skip (by simp [hc]) (.skip (by simp [hb]) members))))⟩
      rw [conditions_junction, List.map_append, hp, hq, List.flatMap_cons]
  | @emptyQuota kind count t o n c b b' e ht ho hn hc hb hb' he =>
      exact ⟨[], rfl, .cons (apart (by simp [ho]) _) (.skip (by simp [ho]) (.skip (by simp [hn])
        (.skip (by simp [hc]) (.skip (by simp [hb]) (.skip (by simp [hb']) (closing he .nil))))))⟩
  | negation ht hr ih =>
      obtain ⟨ps, hp, segments⟩ := ih
      exact ⟨ps, by simp [Rule.group, conditions_junction, hp], .keyword ht hr.starts segments⟩
  | chain hop hr hn hs hl ih ihs =>
      obtain ⟨ps, hp, segments⟩ := ih
      obtain ⟨detached, qs, hq, further⟩ := segments_links (fun l hm => .inr ⟨_, hs l hm⟩) hl ihs
      refine ⟨ps ++ qs, ?_, segments.append detached further⟩
      rw [Rule.group, conditions_junction, List.map_append, hp, hq, List.flatMap_cons]
  | enclosed ho hr hu he ih =>
      obtain ⟨ps, hp, segments⟩ := ih
      exact ⟨ps, hp, .skip (by simp [ho]) (closing he segments)⟩
  | group ho ht hr hs hl he ih ihs =>
      obtain ⟨ps, hp, segments⟩ := ih
      obtain ⟨detached, qs, hq, further⟩ := segments_links (fun l hm => .inl (hs l hm)) hl ihs
      have members := closing he (segments.append detached further)
      rw [List.append_assoc] at members
      refine ⟨ps ++ qs, ?_, .skip (by simp [ho]) (.keyword ht (hr.starts.append _) members)⟩
      rw [Rule.group, conditions_junction, List.map_append, hp, hq, List.flatMap_cons]
  | @emptyGroup op o t e ho ht he =>
      have keyword : Segments [] [t] := .cons nofun .nil
      exact ⟨[], rfl, .skip (by simp [ho]) (closing he keyword)⟩

/-! ### Accepted texts -/

/-- The conditions of what a text is read as. -/
def conditionsOf (o : Option Rule) : List Condition := o.elim [] conditions

/-- The tokens of an accepted text are taken apart into its conditions and other tokens. -/
theorem exists_segmented {text : List Char} {o : Option Rule} (h : Dsl.readStructure text = .ok o) :
    ∃ ps : List (Nat × Condition), ps.map Prod.snd = conditionsOf o ∧ Segmented ps (tokens text) := by
  cases o with
  | none =>
      rw [tokens_of_readStructure_none h]
      exact ⟨[], rfl, .nil⟩
  | some r =>
      obtain ⟨ps, hp, segments⟩ := (spelled_of_readStructure h).segments
      have whole := segments [] [] nofun .nil
      rw [List.append_nil, List.append_nil] at whole
      exact ⟨ps, hp, whole⟩

/-- **The conditions of an accepted text are those that are three tokens in a row**, in this order,
and the linter finds their places just if it takes no keyword for a field. -/
theorem map_conditionsAt {text : String} {o : Option Rule} (h : Dsl.parse text = .ok o) :
    (conditionsAt (tokens text.toList)).map Prod.snd = conditionsOf o ∧
      (conditionOffsets (tokens text.toList) = (conditionsAt (tokens text.toList)).map Prod.fst ↔
        misread (tokens text.toList) = false) := by
  obtain ⟨q, read, same⟩ := Dsl.exists_bare_readStructure h
  obtain ⟨ps, hp, segmented⟩ := exists_segmented read
  have tokenized := tokenized_of_readStructure read
  rw [segmented.conditionsAt_eq tokenized.isLexeme, conditionsOf,
    ← Rule.elim_bare conditions_bare same]
  exact ⟨hp, segmented.conditionOffsets_iff tokenized.isLexeme tokenized.ordered.2⟩

/-! ### Findings -/

section

variable {c : Context}

/-- What the schema has to say about conditions that are numbered from `index` on. -/
def Context.checkConditions (c : Context) (index : Nat) (conds : List Condition) : List Finding :=
  (conds.zipIdx index).flatMap fun p => c.checkCondition p.2 p.1

/-- Conditions in two parts are checked one part after the other, the second numbered on. -/
theorem checkConditions_append (index : Nat) (conds more : List Condition) :
    c.checkConditions index (conds ++ more) =
      c.checkConditions index conds ++ c.checkConditions (index + conds.length) more := by
  rw [Context.checkConditions, List.zipIdx_append, List.flatMap_append]
  rfl

theorem checkConditions_cons (index : Nat) (cond : Condition) (conds : List Condition) :
    c.checkConditions index (cond :: conds) =
      c.checkCondition index cond ++ c.checkConditions (index + 1) conds := rfl

/-- What the schema has to say is not about repeated conditions. -/
theorem filter_checkCondition (index : Nat) (cond : Condition) :
    ((c.checkCondition index cond).filter fun f => f.check ≠ .duplicateCondition) =
      c.checkCondition index cond := by
  refine List.filter_eq_self.mpr fun f hf => decide_eq_true fun e => ?_
  have := (from_checkCondition c index cond f hf).check
  rw [e] at this
  revert this
  decide

/-- What is said about repeated conditions is about nothing else. -/
theorem filter_checkRepeated (index : Nat) (seen : List Condition) (cond : Condition) :
    ((c.checkRepeated index seen cond).filter fun f => f.check ≠ .duplicateCondition) = [] :=
  List.filter_eq_nil_iff.mpr fun f hf => by
    simpa using (from_checkRepeated c index seen cond f hf).check

mutual

/-- **What the schema has to say about a rule it says about its conditions**, numbered in order. -/
theorem filter_checkRule (index : Nat) : ∀ r : Rule,
    ((checkRule c index r).1.filter fun f => f.check ≠ .duplicateCondition) =
        c.checkConditions index (conditions r) ∧
      (checkRule c index r).2 = index + (conditions r).length
  | .atom a _ => by
      cases a with
      | condition cond =>
          refine ⟨(filter_checkCondition index cond).trans ?_, rfl⟩
          exact (List.append_nil _).symm
      | _ => exact ⟨rfl, rfl⟩
  | .scope _ body _ => by
      rw [checkRule]
      exact filter_checkRule index body
  | .junction j members _ => by
      rw [checkRule, conditions_junction]
      exact filter_checkMembers (isGroup j) [] index members

/-- Apart from repetitions the findings about members are those about their conditions, in order,
and these are counted. -/
theorem filter_checkMembers (inGroup : Bool) (seen : List Condition) (index : Nat) :
    ∀ rs : List Rule, ((checkMembers c inGroup seen index rs).1.filter fun f =>
        f.check ≠ .duplicateCondition) = c.checkConditions index (rs.flatMap conditions) ∧
      (checkMembers c inGroup seen index rs).2 = index + (rs.flatMap conditions).length
  | [] => ⟨rfl, rfl⟩
  | r :: rs => by
      obtain ⟨found, next⟩ := filter_checkRule index r
      obtain ⟨later, stop⟩ := filter_checkMembers inGroup (seen ++ (condition? r).toList)
        (checkRule c index r).2 rs
      have repeated : (List.filter (fun f : Finding => f.check ≠ .duplicateCondition)
          (if inGroup then (condition? r).toList.flatMap (c.checkRepeated index seen)
          else [])) = [] := by
        split
        · simp only [List.filter_flatMap, filter_checkRepeated]
          simp
        · rfl
      rw [checkMembers, List.flatMap_cons]
      dsimp only
      rw [List.filter_append, List.filter_append, repeated, found, later, stop, next,
        checkConditions_append, List.length_append, Nat.add_assoc]
      exact ⟨rfl, rfl⟩

end

/-- The finding is about a condition that repeats one in front of it, of those numbered from `index`
on or of others before them. -/
def Repeats (c : Context) (index : Nat) (seen conds : List Condition) (f : Finding) : Prop :=
  ∃ before cond after, conds = before ++ cond :: after ∧
    f ∈ c.checkRepeated (index + before.length) (seen ++ before) cond

namespace Repeats

variable {index : Nat} {seen more conds : List Condition} {f : Finding}

/-- A repetition among conditions is one behind others too. -/
theorem behind (front : List Condition)
    (h : Repeats c (index + front.length) (seen ++ front) conds f) :
    Repeats c index seen (front ++ conds) f := by
  obtain ⟨before, cond, after, rfl, h⟩ := h
  refine ⟨front ++ before, cond, after, by simp, ?_⟩
  rwa [List.length_append, ← Nat.add_assoc, ← List.append_assoc]

/-- A repetition among conditions is one in front of others too. -/
theorem append (h : Repeats c index seen conds f) (later : List Condition) :
    Repeats c index seen (conds ++ later) f := by
  obtain ⟨before, cond, after, rfl, h⟩ := h
  exact ⟨before, cond, after ++ later, by simp, h⟩

/-- More conditions in front do not take the repeated one away. -/
theorem mono (h : Repeats c index seen conds f) (hs : ∀ s ∈ seen, s ∈ more) :
    Repeats c index more conds f := by
  obtain ⟨before, cond, after, rfl, h⟩ := h
  refine ⟨before, cond, after, rfl, ?_⟩
  have further : ∀ s ∈ seen ++ before, s ∈ more ++ before := fun s hm =>
    (List.mem_append.mp hm).elim (fun hm => List.mem_append_left _ (hs s hm))
      (List.mem_append_right _)
  rw [Context.checkRepeated] at h ⊢
  split at h
  · rename_i repeated
    obtain ⟨s, hm, agrees⟩ := List.any_eq_true.mp repeated
    rwa [if_pos (List.any_eq_true.mpr ⟨s, further s hm, agrees⟩)]
  · cases h

end Repeats

mutual

/-- **What is said to repeat an earlier condition of a group is a condition of the rule with an
equal one in front of it.** -/
theorem repeats_checkRule (index : Nat) : ∀ r : Rule, ∀ f ∈ (checkRule c index r).1,
    f.check = .duplicateCondition → Repeats c index [] (conditions r) f
  | .atom a _ => by
      cases a with
      | condition cond =>
          intro f hf hc
          have own := (from_checkCondition c index cond f hf).check
          rw [hc] at own
          exact absurd own (by decide)
      | _ => exact List.forall_mem_nil _
  | .scope _ body _ => by
      rw [checkRule]
      exact repeats_checkRule index body
  | .junction j members _ => by
      rw [checkRule, conditions_junction]
      exact repeats_checkMembers (isGroup j) [] index members

/-- What is said to be repeated among members repeats one of their conditions. -/
theorem repeats_checkMembers (inGroup : Bool) (seen : List Condition) (index : Nat) :
    ∀ rs : List Rule, ∀ f ∈ (checkMembers c inGroup seen index rs).1,
      f.check = .duplicateCondition → Repeats c index seen (rs.flatMap conditions) f
  | [] => List.forall_mem_nil _
  | r :: rs => by
      have next := (filter_checkRule (c := c) index r).2
      have own : ∀ s ∈ (condition? r).toList, s ∈ conditions r := fun s hs =>
        List.mem_filterMap.mpr ⟨r, Rule.mem_preorder_self r, by simpa using hs⟩
      rw [checkMembers, List.flatMap_cons]
      refine List.forall_mem_append.mpr ⟨List.forall_mem_append.mpr ⟨?_, ?_⟩, ?_⟩
      · intro f hf hc
        split at hf
        · obtain ⟨cond, hm, hf⟩ := List.mem_flatMap.mp hf
          have single : conditions r = [cond] := by
            rcases r with ⟨_ | _, _⟩ | _ | _ <;> simp_all [condition?, conditions, Rule.preorder]
          rw [single]
          exact ⟨[], cond, _, rfl, by simpa using hf⟩
        · exact absurd hf List.not_mem_nil
      · intro f hf hc
        exact ((repeats_checkRule index r f hf hc).mono (List.forall_mem_nil _)).append _
      · intro f hf hc
        rw [next] at hf
        refine Repeats.behind _ ((repeats_checkMembers inGroup _ _ rs f hf hc).mono fun s hs => ?_)
        exact (List.mem_append.mp hs).elim (List.mem_append_left _)
          fun hs => List.mem_append_right _ (own s hs)

end

/-! ### Places -/

/-- What is said about a condition is said about its place. -/
theorem location_checkCondition {index : Nat} {cond : Condition} {f : Finding}
    (h : f ∈ c.checkCondition index cond) : f.location = c.locate index := by
  rw [Context.checkCondition] at h
  split at h
  · cases h
  · obtain h | h := List.mem_append.mp h <;> split at h
    · rw [List.mem_singleton.mp h]
      rfl
    · split at h
      · cases h
      · rw [List.mem_singleton.mp h]
        rfl
    · split at h
      · rw [List.mem_singleton.mp h]
        rfl
      · cases h
    · cases h

/-- A repetition is reported at the place of the later condition. -/
theorem location_checkRepeated {index : Nat} {seen : List Condition} {cond : Condition} {f : Finding}
    (h : f ∈ c.checkRepeated index seen cond) : f.location = c.locate index := by
  rw [Context.checkRepeated] at h
  split at h
  · rw [List.mem_singleton.mp h]
    rfl
  · cases h

variable {text : List Char} {schema : Option Schema}

/-- What is known while a condition at a place of a text is checked. -/
def Context.at (text : List Char) (schema : Option Schema) (place : Nat) : Context :=
  ⟨text, [place], schema⟩

/-- What is said about a condition depends on its number only through its place. -/
theorem checkCondition_at {index place : Nat} (h : c.locate index = Text.locate c.text place)
    (cond : Condition) :
    c.checkCondition index cond = (Context.at c.text c.schema place).checkCondition 0 cond := by
  have here : (Context.at c.text c.schema place).locate 0 = c.locate index := h.symm
  simp only [Context.checkCondition, Context.unknownField, here]
  rfl

/-- What is said about a repetition depends on its number only through its place. -/
theorem checkRepeated_at {index place : Nat} (h : c.locate index = Text.locate c.text place)
    (seen : List Condition) (cond : Condition) :
    c.checkRepeated index seen cond =
      (Context.at c.text c.schema place).checkRepeated 0 seen cond := by
  have here : (Context.at c.text c.schema place).locate 0 = c.locate index := h.symm
  rw [Context.checkRepeated, Context.checkRepeated, here]

/-- The place of the condition behind those whose places stand in front. -/
theorem locate_behind (text : List Char) (schema : Option Schema) (front later : List Nat)
    (place : Nat) :
    (Context.mk text (front ++ place :: later) schema).locate front.length =
      Text.locate text place := by
  simp [Context.locate]

/-- Where the places of the conditions are known, what the schema says about a condition it says
about its place. -/
theorem checkConditions_places (front : List Nat) (ps : List (Nat × Condition)) :
    (Context.mk text (front ++ ps.map Prod.fst) schema).checkConditions front.length
        (ps.map Prod.snd) =
      ps.flatMap fun p => (Context.at text schema p.1).checkCondition 0 p.2 := by
  induction ps generalizing front with
  | nil => rfl
  | cons p ps ih =>
      have later := ih (front ++ [p.1])
      rw [List.length_append, List.append_assoc] at later
      rw [List.flatMap_cons, ← later, List.map_cons, List.map_cons, checkConditions_cons]
      exact congrArg (· ++ _) (checkCondition_at (locate_behind text schema front _ p.1) p.2)

/-- Where the places of the conditions are known, a condition that repeats another one is reported
at its place. -/
theorem Repeats.exists_place {ps : List (Nat × Condition)} {f : Finding}
    (h : Repeats ⟨text, ps.map Prod.fst, schema⟩ 0 [] (ps.map Prod.snd) f) :
    ∃ before place cond after, ps = before ++ (place, cond) :: after ∧
      f ∈ (Context.at text schema place).checkRepeated 0 (before.map Prod.snd) cond := by
  obtain ⟨conds, cond, more, split, h⟩ := h
  obtain ⟨before, rest, rfl, rfl, e⟩ := List.map_eq_append_iff.mp split
  obtain ⟨⟨place, _⟩, after, rfl, rfl, rfl⟩ := List.map_eq_cons_iff.mp e
  refine ⟨before, place, _, after, rfl, ?_⟩
  have located := locate_behind text schema (before.map Prod.fst) (after.map Prod.fst) place
  rw [List.length_map] at located h
  rw [Nat.zero_add, List.nil_append, List.map_append, List.map_cons] at h
  rwa [checkRepeated_at located] at h

section

variable {s : Settings} {o : Option Rule} (h : Dsl.read text = .ok o)
  (places : conditionOffsets (tokens text) = (conditionsAt (tokens text)).map Prod.fst)
  (conds : (conditionsAt (tokens text)).map Prod.snd = conditionsOf o)

include h places conds

/-- What the schema has to say it says about each condition at its place. -/
theorem filter_findings_schema : ((findings s schema text).filter fun f =>
      f.check ∈ [.unknownField, .operatorNotAllowed]) =
    (conditionsAt (tokens text)).flatMap fun p =>
      (Context.at text schema p.1).checkCondition 0 p.2 := by
  have only : ((findings s schema text).filter fun f =>
      f.check ∈ [.unknownField, .operatorNotAllowed]) =
        ((findings s schema text).filter fun f => f.check ∈ ruleChecks).filter fun f =>
          f.check ≠ .duplicateCondition := by
    rw [List.filter_filter]
    refine congrArg (List.filter · _) (funext fun f => ?_)
    cases f.check <;> decide
  rw [only, filter_findings_rule h, places, ← checkConditions_places [], conds]
  cases o with
  | none => rfl
  | some r => exact (filter_checkRule 0 r).1

/-- A finding that needs a rule is about a condition at its place. -/
theorem exists_place_of_mem {f : Finding} (hf : f ∈ findings s schema text)
    (hc : f.check ∈ ruleChecks) :
    ∃ before place cond after, conditionsAt (tokens text) = before ++ (place, cond) :: after ∧
      f.location = Text.locate text place ∧
      (f ∈ (Context.at text schema place).checkCondition 0 cond ∨
        f ∈ (Context.at text schema place).checkRepeated 0 (before.map Prod.snd) cond) := by
  by_cases repeated : f.check = .duplicateCondition
  · have found : f ∈ (findings s schema text).filter fun f => f.check ∈ ruleChecks :=
      List.mem_filter.mpr ⟨hf, decide_eq_true hc⟩
    rw [filter_findings_rule h, places] at found
    cases o with
    | none => cases found
    | some r =>
        have repeats := repeats_checkRule 0 r f found repeated
        rw [show conditions r = _ from conds.symm] at repeats
        obtain ⟨before, place, cond, after, split, hf⟩ := repeats.exists_place
        exact ⟨before, place, cond, after, split, location_checkRepeated hf, .inr hf⟩
  · have found : f ∈ (findings s schema text).filter fun f =>
        f.check ∈ [.unknownField, .operatorNotAllowed] := by
      refine List.mem_filter.mpr ⟨hf, decide_eq_true ?_⟩
      revert hc repeated
      cases f.check <;> decide
    rw [filter_findings_schema h places conds] at found
    obtain ⟨⟨place, cond⟩, hm, hf⟩ := List.mem_flatMap.mp found
    obtain ⟨before, after, split⟩ := List.append_of_mem hm
    exact ⟨before, place, cond, after, split, location_checkCondition hf, .inl hf⟩

end

/-- **The conditions of an accepted text are those that are three tokens in a row; the linter finds
their places just if it takes no keyword for a field; and then what it says about conditions it says
about their places.**  What the schema has to say it says about each of them, and what repeats an
earlier condition is one of them. -/
theorem lint_located {s : Settings} {text : String} {o : Option Rule} (h : Dsl.parse text = .ok o) :
    let ts := tokens text.toList
    (conditionsAt ts).map Prod.snd = conditionsOf o ∧
      (conditionOffsets ts = (conditionsAt ts).map Prod.fst ↔ misread ts = false) ∧
      (misread ts = false →
        (((lint s schema text).filter fun f => f.check ∈ [.unknownField, .operatorNotAllowed]).Perm
          (((conditionsAt ts).flatMap fun p =>
            (Context.at text.toList schema p.1).checkCondition 0 p.2).filter fun f =>
              s.isEnabled f.check)) ∧
        ∀ f ∈ lint s schema text, f.check ∈ ruleChecks →
          ∃ before place cond after, conditionsAt ts = before ++ (place, cond) :: after ∧
            f.location = Text.locate text.toList place ∧
            (f ∈ (Context.at text.toList schema place).checkCondition 0 cond ∨
              f ∈ (Context.at text.toList schema place).checkRepeated 0 (before.map Prod.snd)
                cond)) := by
  intro ts
  obtain ⟨conds, places⟩ := map_conditionsAt h
  refine ⟨conds, places, fun right => ⟨?_, fun f hf hc => ?_⟩⟩
  · rw [← filter_findings_schema h (places.mpr right) conds]
    exact perm_lint_filter_mem text _
  · rw [lint, (perm_sortStable _).mem_iff] at hf
    exact exists_place_of_mem h (places.mpr right) conds (List.mem_filter.mp hf).1 hc

/-- A field with the name of a comparison and one with that of a keyword, repeated; the second of
the equal conditions is the one reported. -/
theorem lint_located_repeated :
    let text := "(contains == 1) AND or == 2 AND\nor == 2"
    let ts := tokens text.toList
    (∃ r, Dsl.parse text = .ok (some r)) ∧ misread ts = false ∧ conditionOffsets ts = [1, 20, 32] ∧
      (∀ f ∈ lint .standard (some (Schema.empty.declare "or" ⟨.number, none⟩)) text,
        f.check ∈ ruleChecks → ∃ p ∈ conditionsAt ts, f.location = Text.locate text.toList p.1) ∧
      ∃ f ∈ lint .standard (some (Schema.empty.declare "or" ⟨.number, none⟩)) text,
        f.check = .duplicateCondition ∧ f.location = ⟨2, 1⟩ := by
  have read : Dsl.parse "(contains == 1) AND or == 2 AND\nor == 2" = .ok (some _) := rfl
  have right : misread (tokens "(contains == 1) AND or == 2 AND\nor == 2".toList) = false := by
    decide +kernel
  obtain ⟨-, -, located⟩ :=
    @lint_located (some (Schema.empty.declare "or" ⟨.number, none⟩)) .standard _ _ read
  refine ⟨⟨_, read⟩, right, by decide +kernel, fun f hf hc => ?_, by decide +kernel⟩
  obtain ⟨before, place, cond, after, split, location, -⟩ := (located right).2 f hf hc
  exact ⟨(place, cond), split ▸ List.mem_append_right _ List.mem_cons_self, location⟩

/-- The keyword in front of a field that has the name of a comparison is taken for the field. -/
theorem lint_misplaced :
    let text := "a == 1 AND contains == 2"
    let ts := tokens text.toList
    (∃ r, Dsl.parse text = .ok (some r) ∧ (conditions r).map Condition.field = ["a", "contains"]) ∧
      (conditionsAt ts).map Prod.fst = [0, 11] ∧ conditionOffsets ts = [0, 7] ∧
      ∃ f ∈ lint .standard (some (Schema.empty.declare "a" ⟨.string, none⟩)) text,
        f.message = "unknown field 'contains'" ∧ f.location = ⟨1, 8⟩ := by
  have read : Dsl.parse "a == 1 AND contains == 2" = .ok (some _) := rfl
  exact ⟨⟨_, read, rfl⟩, by decide +kernel⟩

end

end Rulebook.Lint
