import Rulebook.Proofs.Dsl.Negation

/-!
# Rulebook — Proofs — Dsl — Firm

Readers that never fail openly (`Firm`): whatever is committed to, optional or repeated, and what is
composed of such readers.  An operand is refused only by its first character, and so is a group
behind its keyword (`not_refuses_group`): a keyword in parentheses in front of a name or of another
parenthesis is the head of a group, or the text is none.
-/

namespace Rulebook.Dsl

open Grammar

namespace Grammar

variable {α β : Type} {p q : Grammar α} {f : α → Grammar β} {cs : List Char}

/-! ### What was refused -/

/-- What two readers refuse the first one refuses, or the second one behind it. -/
theorem refuses_bind_cases (h : (p >>= f).Refuses cs) :
    p.Refuses cs ∨ ∃ a rest, p cs = .ok a rest ∧ (f a).Refuses rest := by
  obtain ⟨e, rest, h, he⟩ := h
  cases hp : p cs with
  | ok a mid => exact .inr ⟨a, mid, rfl, e, rest, (bind_ok hp).symm.trans h, he⟩
  | fail e' mid =>
      rw [bind_fail hp] at h
      cases h
      exact .inl ⟨e, rest, hp, he⟩

theorem refuses_of_marked {m : Mark} (h : (marked m p).Refuses cs) : p.Refuses cs := by
  obtain ⟨e, rest, h, he⟩ := h
  rw [marked] at h
  cases hp : p cs with
  | ok a mid => rw [hp] at h; cases h
  | fail e' mid =>
      rw [hp] at h
      cases h
      exact ⟨e', rest, hp, he⟩

/-- What two alternatives refuse both refuse. -/
theorem refuses_of_orElse (h : (p <|> q).Refuses cs) : p.Refuses cs ∧ q.Refuses cs := by
  obtain ⟨e, rest, h, he⟩ := h
  change orElse p (fun _ => q) cs = .fail e rest at h
  rw [orElse] at h
  cases hp : p cs with
  | ok a mid => rw [hp] at h; cases h
  | fail e' mid =>
      rw [hp] at h
      dsimp only at h
      split at h
      · rename_i committed
        cases h
        rw [he] at committed
        cases committed
      · rename_i committed
        exact ⟨⟨e', mid, hp, by simpa using committed⟩, e, rest, h, he⟩

/-- An optional part is missing where it is refused. -/
theorem refuses_of_optional {rest : List Char} (h : optional p cs = .ok none rest) :
    p.Refuses cs ∧ rest = cs := by
  rw [optional] at h
  cases hp : p cs with
  | ok a mid => rw [hp] at h; cases h
  | fail e mid =>
      rw [hp] at h
      dsimp only at h
      split at h
      · cases h
      · rename_i committed
        cases h
        exact ⟨⟨e, mid, hp, by simpa using committed⟩, rfl⟩

/-! ### Never refused -/

/-- The reader never fails openly. -/
def Firm (p : Grammar α) : Prop := ∀ cs, ¬ p.Refuses cs

namespace Firm

theorem pure (a : α) : Firm (Pure.pure a) := by
  rintro cs ⟨e, rest, h, -⟩
  cases h

/-- What is composed of readers that never fail openly never does. -/
theorem bind (hp : Firm p) (hf : ∀ a, Firm (f a)) : Firm (p >>= f) := by
  intro cs h
  obtain h | ⟨a, rest, -, h⟩ := refuses_bind_cases h
  · exact hp cs h
  · exact hf a rest h

theorem marked (hp : Firm p) (m : Mark) : Firm (Grammar.marked m p) :=
  fun cs h => hp cs (refuses_of_marked h)

/-- What is committed to never fails openly. -/
theorem commit (p : Grammar α) : Firm (Grammar.commit p) := by
  rintro cs ⟨e, rest, h, he⟩
  rw [Grammar.commit] at h
  cases hp : p cs with
  | ok a mid => rw [hp] at h; cases h
  | fail e' mid =>
      rw [hp] at h
      cases h
      cases he

theorem abort (marks : List Mark) : Firm (Grammar.abort marks : Grammar α) := by
  rintro cs ⟨e, rest, h, he⟩
  cases h
  cases he

/-- An optional part never fails openly. -/
theorem optional (p : Grammar α) : Firm (Grammar.optional p) := by
  rintro cs ⟨e, rest, h, he⟩
  rw [Grammar.optional] at h
  cases hp : p cs with
  | ok a mid => rw [hp] at h; cases h
  | fail e' mid =>
      rw [hp] at h
      dsimp only at h
      split at h
      · rename_i committed
        cases h
        rw [he] at committed
        cases committed
      · cases h

theorem manyWithin (p : Grammar α) (fuel : Nat) : Firm (Grammar.manyWithin p fuel) := by
  induction fuel with
  | zero =>
      rintro cs ⟨e, rest, h, -⟩
      cases h
  | succ fuel ih =>
      rintro cs ⟨e, rest, h, he⟩
      rw [Grammar.manyWithin] at h
      cases hp : p cs with
      | fail e' mid =>
          rw [hp] at h
          dsimp only at h
          split at h
          · rename_i committed
            cases h
            rw [he] at committed
            cases committed
          · cases h
      | ok a mid =>
          rw [hp] at h
          dsimp only at h
          cases hm : Grammar.manyWithin p fuel mid with
          | ok as rest' => rw [hm] at h; cases h
          | fail e' rest' =>
              rw [hm] at h
              cases h
              exact ih mid ⟨e, rest, hm, he⟩

/-- A repetition never fails openly. -/
theorem many (p : Grammar α) : Firm (Grammar.many p) := fun cs => manyWithin p (cs.length + 1) cs

theorem separated (p : Grammar α) (s : Grammar Unit) : Firm (Grammar.separated p s) := by
  rintro cs ⟨e, rest, h, he⟩
  rw [Grammar.separated] at h
  cases hp : p cs with
  | fail e' mid =>
      rw [hp] at h
      dsimp only at h
      split at h
      · rename_i committed
        cases h
        rw [he] at committed
        cases committed
      · cases h
  | ok a mid =>
      rw [hp] at h
      dsimp only at h
      cases hm : Grammar.many (s >>= fun _ => p) mid with
      | ok as rest' => rw [hm] at h; cases h
      | fail e' rest' =>
          rw [hm] at h
          cases h
          exact many _ mid ⟨e, rest, hm, he⟩

end Firm

end Grammar

open Grammar (Firm)

variable {α : Type} {rule p : Grammar Rule} {cs : List Char}

/-! ### Calls and conditions -/

theorem firm_trivia : Firm trivia := by
  rintro cs ⟨e, rest, h, -⟩
  cases h

/-- Punctuation is committed to. -/
theorem firm_punctuation (c : Char) : Firm (punctuation c) := (Firm.commit _).marked _

/-- An argument is committed to. -/
theorem firm_argument (p : Grammar α) : Firm (argument p) := firm_trivia.bind fun _ => .commit p

theorem firm_ruleList (rule : Grammar Rule) : Firm (ruleList rule) :=
  firm_trivia.bind fun _ => ((Firm.commit _).marked _).bind fun _ =>
    (Firm.separated rule _).bind fun _ => (firm_punctuation ']').bind fun _ => .pure _

/-- The arguments of a call never fail openly. -/
theorem firm_callArguments (rule : Grammar Rule) (name : String) (form : CallForm) :
    Firm (callArguments rule name form) := by
  -- most calls end with an argument that is needed
  have last {α : Type} (p : Grammar α) (f : α → Rule) :
      Firm (do let a ← argument p; return f a) := (firm_argument p).bind fun _ => .pure _
  have comma {q : Grammar Rule} (hq : Firm q) : Firm (do punctuation ','; q) :=
    (firm_punctuation ',').bind fun _ => hq
  have field {f : String → Grammar Rule} (hf : ∀ s, Firm (f s)) :
      Firm (do let s ← argument fieldName; punctuation ','; f s) :=
    (firm_argument _).bind fun s => comma (hf s)
  cases form with
  | requirement _ => exact field fun _ => last _ _
  | forEach => exact field fun _ => last _ _
  | guarded _ => exact field fun _ => last _ _
  | uniqueBy => exact field fun _ => last _ _
  | length _ => exact field fun _ => last _ _
  | withDefault => exact field fun _ => (firm_argument _).bind fun _ => comma (last _ _)
  | quota _ =>
      exact (firm_argument _).bind fun _ => comma ((firm_ruleList rule).bind fun _ => .pure _)
  | contextual => exact last _ _
  | expression => exact last _ _
  | custom => exact (firm_argument _).bind fun _ => comma (last _ _)
  | template => exact (firm_argument _).bind fun _ => (Firm.many _).bind fun _ => .pure _
  | plain => exact firm_trivia.bind fun _ => (Firm.separated _ _).bind fun _ => .pure _

theorem firm_callBody (rule : Grammar Rule) (name : String) : Firm (callBody rule name) :=
  (firm_callArguments rule name _).bind fun _ => (firm_punctuation ')').bind fun _ => .pure _

/-- What is behind a field never fails openly. -/
theorem firm_conditionRest (field : String) : Firm (conditionRest field) :=
  firm_trivia.bind fun _ => ((Firm.commit _).marked _).bind fun _ => firm_trivia.bind fun _ =>
    (Firm.commit _).bind fun _ => .pure _

/-! ### Chains -/

theorem firm_linksWithin (op : Connective) (p : Grammar Rule) (fuel : Nat) :
    Firm (linksWithin op p fuel) := by
  induction fuel with
  | zero =>
      rintro cs ⟨e, rest, h, -⟩
      cases h
  | succ fuel ih =>
      intro cs h
      obtain ⟨e, rest, h, he⟩ := h
      rw [linksWithin] at h
      cases hk : keyword op (skipTrivia cs) with
      | fail f r => rw [hk] at h; cases h
      | ok u behind =>
          rw [hk] at h
          have further : Firm (do
              let r ← commit p
              let rs ← linksWithin op p fuel
              return r :: rs : Grammar (List Rule)) :=
            (Firm.commit p).bind fun _ => ih.bind fun _ => .pure _
          exact further behind ⟨e, rest, h, he⟩

/-- A chain from its first member on never fails openly. -/
theorem firm_chainFrom (op : Connective) (p : Grammar Rule) (first : Rule) :
    Firm (chainFrom op p first) := by
  have links : Firm (links op p) := fun cs => firm_linksWithin op p (cs.length + 1) cs
  refine links.bind fun rs => ?_
  cases rs with
  | nil => exact .pure _
  | cons r rs => exact .pure _

/-- A chain is refused only where its first operand is. -/
theorem refuses_of_chain {op : Connective} (h : (chain op p).Refuses cs) : p.Refuses cs := by
  obtain h | ⟨first, rest, -, h⟩ := refuses_bind_cases h
  · exact h
  · exact absurd h (((firm_chainFrom op p first).bind fun _ => .pure _) rest)

/-- An expression is refused only where its first operand is. -/
theorem refuses_of_expression {below : Option (Grammar Rule)} (h : (expression below).Refuses cs) :
    ∃ u ∈ below, u.Refuses (skipTrivia cs) := by
  cases below with
  | none => exact absurd h (Firm.abort _ cs)
  | some u =>
      obtain h | ⟨_, rest, e, h⟩ := refuses_bind_cases h
      · exact absurd h (firm_trivia cs)
      · cases e
        exact ⟨u, rfl, refuses_of_chain (refuses_of_chain (refuses_of_chain (refuses_of_chain h)))⟩

/-! ### Operands and groups -/

section

variable {below below₂ : Option (Grammar Rule)} {c : Char} {t : List Char}

/-- Where a name or a parenthesis starts, an operand is read or all fails for good. -/
theorem not_refuses_operandWith (e : skipTrivia cs = c :: t)
    (hc : Text.isNameStart c = true ∨ c = '(') : ¬ (operandWith below below₂).Refuses cs := by
  intro h
  rw [Refuses, operandWith, trivia_bind, e] at h
  obtain h | ⟨next, rest, read, h⟩ := refuses_bind_cases h
  · exact Firm.optional _ _ h
  cases next with
  | some _ =>
      have operand : Firm (nested below commit) := by
        cases below with
        | none => exact .abort _
        | some u => exact .commit u
      exact (operand.bind fun _ => .pure _) rest h
  | none =>
      obtain ⟨-, rfl⟩ := refuses_of_optional read
      have solid : skipTrivia (c :: t) = c :: t := by rw [← e, skipTrivia_skipTrivia]
      have primary : (primary below below₂).Refuses (c :: t) := h
      rw [Refuses, Dsl.primary, trivia_bind, solid] at primary
      obtain ⟨enclosed, others⟩ := refuses_of_orElse (refuses_of_marked primary)
      obtain ⟨-, named⟩ := refuses_of_orElse others
      obtain hc | rfl := hc
      · have name : nameString (c :: t) = .ok (String.ofList (c :: t.takeWhile Text.isNamePart))
            (t.dropWhile Text.isNamePart) := by
          rw [nameString, bind_apply, Dsl.name, if_pos hc]
          rfl
        rw [Refuses, Dsl.named, bind_ok name] at named
        refine ((Firm.optional _).bind fun next => ?_) _ named
        cases next with
        | some _ => exact firm_callBody _ _
        | none => exact firm_conditionRest _
      · rw [Refuses, parenthesized, bind_ok (char_ok _ _)] at enclosed
        have close (r : Rule) : Firm (do punctuation ')'; return r : Grammar Rule) :=
          (firm_punctuation ')').bind fun _ => .pure r
        refine ((Firm.optional _).bind fun next => ?_) _ enclosed
        cases next with
        | some r => exact (Firm.pure r).bind close
        | none => exact (Firm.commit _).bind close

/-- The reader of operands goes by their first character. -/
def Opens (p : Grammar Rule) : Prop := ∀ c t, skipTrivia (c :: t) = c :: t →
  Text.isNameStart c = true ∨ c = '(' → ¬ p.Refuses (c :: t)

/-- The operands that a level allows go by their first character. -/
theorem opens_levelBelow (k : Nat) : ∀ u ∈ levelBelow k, Opens u := by
  cases k with
  | zero => exact nofun
  | succ k =>
      rintro u ⟨⟩ c t solid hc
      rw [unary_eq]
      exact not_refuses_operandWith solid hc

/-- **A keyword in front of a name or of a parenthesis is the head of a group**, or all fails for
good. -/
theorem not_refuses_group {op : Connective} {w mid : List Char} (hb : ∀ u ∈ below, Opens u)
    (hw : Connective.ofKeyword? w = some op) (hop : op ≠ .not) (hm : Ends mid)
    (e : skipTrivia mid = c :: t) (hc : Text.isNameStart c = true ∨ c = '(') :
    ¬ (group below below₂).Refuses (w ++ mid) := by
  intro h
  have stop : (char ')').Refuses (c :: t) := by
    refine refuses_char ?_
    rintro u ⟨⟩
    obtain hc | hc := hc <;> exact absurd hc (by decide)
  rw [Refuses, group_members, trivia_bind, skipTrivia_ofKeyword? mid hw, bind_ok (connective_ok hw hm),
    trivia_bind, e, bind_ok (optional_of_refuses stop.peek)] at h
  have members : (groupMembers below below₂ op).Refuses (c :: t) := h
  rw [Refuses, groupMembers, if_neg hop] at members
  obtain first | ⟨r, rest, -, more⟩ := refuses_bind_cases members
  · obtain ⟨u, hu, operand⟩ := refuses_of_expression first
    have solid : skipTrivia (c :: t) = c :: t := by rw [← e, skipTrivia_skipTrivia]
    rw [solid] at operand
    exact hb u hu c t solid hc operand
  · exact ((Firm.many _).bind fun _ => .pure _) rest more

end

end Rulebook.Dsl
