import Rulebook.Proofs.Dsl.Documents
import Rulebook.Proofs.Dsl.Firm
import Rulebook.Proofs.Lint.Spelled

/-!
# Rulebook — Proofs — Lint — Consumed

The tokens that the grammar consumes.  A reader on a text that is laid out as tokens takes some of
them from the front, and leaves a text that is laid out as the others (`Consumes`).  What a
combinator of readers takes is what its parts take, one after the other, so that the tokens that are
taken for a rule are those that the rule is read from, production by production (`consumes_unary`).

* `spelled_of_readStructure`: the tokens of an accepted text are those of its rule.
-/

namespace Rulebook.Lint

open Dsl (Grammar Halting Lexeme Lexical Midway Never skipTrivia)
open Dsl.Grammar

variable {α β : Type} {D : List Char → Prop} {I J K : List Char → List Token → Prop}
  {p q : Grammar α} {Q R : α → List Token → Prop} {S : β → List Token → Prop}

/-! ### Texts and tokens -/

/-- The text is blanks, comments and these tokens. -/
def Laid (cs : List Char) (ts : List Token) : Prop := ∃ n offset, Tokenized n offset cs ts

/-- The text starts with the first of the tokens. -/
def Bare (cs : List Char) (ts : List Token) : Prop := Laid cs ts ∧ skipTrivia cs = cs

/-- Behind blanks and comments the text is bare. -/
theorem Laid.bare {cs : List Char} {ts : List Token} (h : Laid cs ts) : Bare (skipTrivia cs) ts := by
  obtain ⟨n, offset, h⟩ := h
  refine ⟨?_, Dsl.skipTrivia_skipTrivia cs⟩
  induction h with
  | nil => exact ⟨0, 0, .nil⟩
  | blank hb _ ih => rwa [Dsl.skipTrivia_blank _ hb]
  | comment hb he _ ih => rwa [Dsl.skipTrivia_ended hb he]
  | token hs hn t _ =>
      rw [hs.skipTrivia]
      exact ⟨_, _, .token hs hn t⟩

/-- A bare text is at its end or starts with a lexeme, the first of its tokens. -/
theorem Bare.cases {cs : List Char} {ts : List Token} (h : Bare cs ts) : cs = [] ∧ ts = [] ∨
    ∃ (l : Lexeme) (offset : Nat) (rest : List Char) (later : List Token), cs = l.text ++ rest ∧
      ts = tokenOf l offset :: later ∧ l.Stands rest ∧ Laid rest later := by
  obtain ⟨⟨n, offset, h⟩, solid⟩ := h
  have shorter {c : Char} {cs ds : List Char} (e : skipTrivia ds = c :: cs)
      (le : ds.length ≤ cs.length) : False := by
    have := Dsl.skipTrivia_length_le ds
    rw [e, List.length_cons] at this
    omega
  cases h with
  | nil => exact .inl ⟨rfl, rfl⟩
  | blank hb t =>
      rw [Dsl.skipTrivia_blank _ hb] at solid
      exact (shorter solid (Nat.le_refl _)).elim
  | comment hb he t =>
      rw [Dsl.skipTrivia_ended hb he] at solid
      exact (shorter solid (by simp)).elim
  | token hs hn t => exact .inr ⟨_, _, _, _, rfl, rfl, hs, _, _, t⟩

/-! ### Combinators -/

/-- The reader takes tokens from the front of a text of kind `I`, which have the property `Q`
together with the value, and what it leaves is of kind `J`; or it stops at one of the places `D`. -/
def Consumes (D : List Char → Prop) (I J : List Char → List Token → Prop) (p : Grammar α)
    (Q : α → List Token → Prop) : Prop :=
  ∀ cs ts a rest, I cs ts → p cs = .ok a rest →
    D rest ∨ ∃ used later, ts = used ++ later ∧ J rest later ∧ Q a used

/-- Values one after the other, each with its tokens. -/
inductive Sequence (Q : α → List Token → Prop) : List α → List Token → Prop where
  | nil : Sequence Q [] []
  | cons {a : α} {as : List α} {us vs : List Token} (h : Q a us) (t : Sequence Q as vs) :
      Sequence Q (a :: as) (us ++ vs)

namespace Consumes

/-- A value that is there anyway takes no tokens. -/
theorem pure {a : α} (h : Q a []) : Consumes D I I (Pure.pure a) Q := by
  rintro cs ts _ _ hI ⟨⟩
  exact .inr ⟨[], ts, rfl, hI, h⟩

theorem mono (h : Consumes D I J p Q) (hQ : ∀ a us, Q a us → R a us) : Consumes D I J p R := by
  intro cs ts a rest hI hp
  refine (h cs ts a rest hI hp).imp_right ?_
  rintro ⟨used, later, e, hJ, h⟩
  exact ⟨used, later, e, hJ, hQ a used h⟩

theorem weaken (h : Consumes Never I J p Q) : Consumes D I J p Q :=
  fun cs ts a rest hI hp => (h cs ts a rest hI hp).imp_left False.elim

theorem starting (h : Consumes D I J p Q) (hK : ∀ cs ts, K cs ts → I cs ts) : Consumes D K J p Q :=
  fun cs ts a rest hI => h cs ts a rest (hK cs ts hI)

/-- What was taken, where the reader stops nowhere else. -/
theorem taken (h : Consumes Never I J p Q) {cs : List Char} {ts : List Token} {a : α}
    {rest : List Char} (hI : I cs ts) (hp : p cs = .ok a rest) :
    ∃ used later, ts = used ++ later ∧ J rest later ∧ Q a used :=
  (h cs ts a rest hI hp).resolve_left id

/-- One reader behind another takes its tokens behind the other's. -/
theorem bind {f : α → Grammar β} (hp : Consumes Never I J p Q)
    (hf : ∀ a us, Q a us → Consumes D J K (f a) fun b vs => S b (us ++ vs)) :
    Consumes D I K (p >>= f) S := by
  intro cs ts b rest hI h
  obtain ⟨a, mid, ha, hb⟩ := bind_eq_ok h
  obtain ⟨us, more, rfl, hJ, hQ⟩ := hp.taken hI ha
  refine (hf a us hQ mid more b rest hJ hb).imp_right ?_
  rintro ⟨vs, later, rfl, hK, hS⟩
  exact ⟨us ++ vs, later, (List.append_assoc us vs later).symm, hK, hS⟩

/-- Where the first reader stops at one of the places `D` the second one fails. -/
theorem bind_of_fails {f : α → Grammar β} (hp : Consumes D I J p Q)
    (hf : ∀ a us, Q a us → Consumes Never J K (f a) fun b vs => S b (us ++ vs))
    (hD : ∀ a cs, D cs → (f a).Fails cs) : Consumes Never I K (p >>= f) S := by
  intro cs ts b rest hI h
  obtain ⟨a, mid, ha, hb⟩ := bind_eq_ok h
  obtain stops | ⟨us, more, rfl, hJ, hQ⟩ := hp cs ts a mid hI ha
  · obtain ⟨e, t, fails⟩ := hD a mid stops
    rw [fails] at hb
    cases hb
  · obtain ⟨vs, later, rfl, hK, hS⟩ := (hf a us hQ).taken hJ hb
    exact .inr ⟨us ++ vs, later, (List.append_assoc us vs later).symm, hK, hS⟩

theorem map {f : α → β} (h : Consumes D I J p Q) (hf : ∀ a us, Q a us → S (f a) us) :
    Consumes D I J (do let a ← p; return f a) S := by
  intro cs ts b rest hI hb
  obtain ⟨a, mid, ha, e⟩ := bind_eq_ok hb
  cases e
  exact h.mono (R := fun a us => S (f a) us) hf cs ts a rest hI ha

theorem abort (marks : List Dsl.Mark) : Consumes D I J (Grammar.abort marks : Grammar α) Q := by
  rintro cs ts a rest - ⟨⟩

/-- A mark on a reader changes nothing about what it takes. -/
theorem marked (h : Consumes D I J p Q) (m : Dsl.Mark) : Consumes D I J (Grammar.marked m p) Q :=
  fun cs ts a rest hI hp => h cs ts a rest hI (marked_eq_ok hp)

/-- Committing to a reader changes nothing about what it takes. -/
theorem commit (h : Consumes D I J p Q) : Consumes D I J (Grammar.commit p) Q :=
  fun cs ts a rest hI hp => h cs ts a rest hI (commit_eq_ok hp)

/-- Of two alternatives, the one that is read has taken the tokens. -/
theorem orElse (hp : Consumes D I J p Q) (hq : Consumes D I J q Q) : Consumes D I J (p <|> q) Q :=
  fun cs ts a rest hI h => (orElse_eq_ok h).elim (hp cs ts a rest hI) (hq cs ts a rest hI)

/-- Behind an optional part the text is of one kind if it was there, and where it was refused the
text is still what it was. -/
theorem optional_bind {f : Option α → Grammar β} (hp : Consumes Never I J p Q)
    (there : ∀ a us, Q a us → Consumes D J K (f (some a)) fun b vs => S b (us ++ vs))
    (missing : Consumes D (fun cs ts => I cs ts ∧ p.Refuses cs) K (f none) S) :
    Consumes D I K (Grammar.optional p >>= f) S := by
  intro cs ts b rest hI h
  obtain ⟨o, mid, ho, hb⟩ := bind_eq_ok h
  cases o with
  | none =>
      obtain ⟨refused, rfl⟩ := refuses_of_optional ho
      exact missing _ ts b rest ⟨hI, refused⟩ hb
  | some a =>
      obtain ⟨_, e, ha⟩ | ⟨e, -⟩ := optional_eq_ok ho
      · cases e
        exact hp.bind there cs ts b rest hI ((bind_ok ha).trans hb)
      · cases e

/-- Reading ahead takes nothing. -/
theorem peek_bind {f : Option α → Grammar β} (hf : ∀ o, Consumes D I J (f o) S) :
    Consumes D I J (Grammar.optional (Grammar.peek p) >>= f) S := by
  intro cs ts b rest hI h
  obtain ⟨o, mid, ho, hb⟩ := bind_eq_ok h
  obtain ⟨a, rfl, ha⟩ | ⟨rfl, rfl⟩ := optional_eq_ok ho
  · obtain rfl := peek_eq_ok ha
    exact hf _ _ ts b rest hI hb
  · exact hf none _ ts b rest hI hb

theorem manyWithin (h : Consumes Never I I p Q) (fuel : Nat) :
    Consumes Never I I (Grammar.manyWithin p fuel) (Sequence Q) := by
  induction fuel with
  | zero =>
      rintro cs ts _ _ hI ⟨⟩
      exact .inr ⟨[], ts, rfl, hI, .nil⟩
  | succ fuel ih =>
      intro cs ts as rest hI hp
      rw [Grammar.manyWithin] at hp
      cases hr : p cs with
      | fail e mid =>
          rw [hr] at hp
          dsimp only at hp
          split at hp
          · cases hp
          · cases hp
            exact .inr ⟨[], ts, rfl, hI, .nil⟩
      | ok a mid =>
          rw [hr] at hp
          dsimp only at hp
          obtain ⟨us, more, rfl, hmid, hQ⟩ := h.taken hI hr
          cases hm : Grammar.manyWithin p fuel mid with
          | fail e rest' => rw [hm] at hp; cases hp
          | ok as rest' =>
              rw [hm] at hp
              cases hp
              obtain ⟨vs, later, rfl, hrest, hs⟩ := ih.taken hmid hm
              exact .inr ⟨us ++ vs, later, (List.append_assoc us vs later).symm, hrest, .cons hQ hs⟩

/-- A repetition takes the tokens of each reading in turn. -/
theorem many (h : Consumes Never I I p Q) : Consumes Never I I (Grammar.many p) (Sequence Q) :=
  fun cs => h.manyWithin (cs.length + 1) cs

/-- Nothing, or a first reading and others behind separators. -/
theorem separated {s : Grammar Unit} {T : List α → List Token → Prop} (h : Consumes Never I I p Q)
    (hs : Consumes Never I I (s >>= fun _ => p) R) (none : T [] [])
    (some : ∀ a us as vs, Q a us → Sequence R as vs → T (a :: as) (us ++ vs)) :
    Consumes Never I I (Grammar.separated p s) T := by
  intro cs ts as rest hI hp
  rw [Grammar.separated] at hp
  cases hr : p cs with
  | fail e mid =>
      rw [hr] at hp
      dsimp only at hp
      split at hp
      · cases hp
      · cases hp
        exact .inr ⟨[], ts, rfl, hI, none⟩
  | ok a mid =>
      rw [hr] at hp
      dsimp only at hp
      obtain ⟨us, more, rfl, hmid, hQ⟩ := h.taken hI hr
      cases hm : Grammar.many (s >>= fun _ => p) mid with
      | fail e rest' => rw [hm] at hp; cases hp
      | ok as rest' =>
          rw [hm] at hp
          cases hp
          obtain ⟨vs, later, rfl, hrest, hs⟩ := hs.many.taken hmid hm
          exact .inr ⟨us ++ vs, later, (List.append_assoc us vs later).symm, hrest,
            some a us as vs hQ hs⟩

end Consumes

/-! ### Tokens -/

/-- A single token. -/
inductive One (P : Token → Prop) : List Token → Prop where
  | mk {t : Token} (h : P t) : One P [t]

theorem consumes_trivia_bind {f : Unit → Grammar β} (hf : Consumes D Bare J (f ()) S) :
    Consumes D Laid J (Dsl.trivia >>= f) S :=
  fun _ ts b rest h hb => hf _ ts b rest h.bare hb

/-- A text in front of a lexeme of which a reader reads something, so that it is not at its end. -/
theorem Bare.exists_lexeme {cs rest : List Char} {ts : List Token} {a : α} (h : Bare cs ts)
    (he : p.Fails []) (hp : p cs = .ok a rest) : ∃ (l : Lexeme) (offset : Nat) (behind : List Char)
      (later : List Token), cs = l.text ++ behind ∧ ts = [tokenOf l offset] ++ later ∧
        l.Stands behind ∧ Laid behind later := by
  obtain ⟨rfl, -⟩ | whole := h.cases
  · obtain ⟨f, mid, hf⟩ := he
    rw [hf] at hp
    cases hp
  · exact whole

/-- What is read of a lexeme is read of it alone. -/
theorem spells_of_verdict {l : Lexeme} {behind rest : List Char} {a : α} (v : Dsl.Verdict p l)
    (hs : l.Stands behind) (hp : p (l.text ++ behind) = .ok a rest) (offset : Nat) :
    rest = behind ∧ (tokenOf l offset).Spells p a := by
  cases v with
  | reads b _ _ hr =>
      rw [hr _ hs] at hp
      cases hp
      have alone : l.Stands [] := Stands.resume hs ⟨.inr nofun, nofun⟩
      have whole := hr [] alone
      rw [List.append_nil] at whole
      exact ⟨rfl, l, offset, rfl, alone, whole⟩
  | refuses hr =>
      obtain ⟨f, mid, hf, -⟩ := hr _ hs
      rw [hf] at hp
      cases hp
  | stops hr =>
      obtain ⟨f, mid, hf, -⟩ := hr _ hs
      rw [hf] at hp
      cases hp

/-- A reader that decides on lexemes takes one token, which spells the value. -/
theorem consumes_lexical (h : Lexical p) (he : p.Fails []) :
    Consumes D Bare Laid p fun a => One fun t => t.Spells p a := by
  intro cs ts a rest hb hp
  obtain ⟨l, offset, behind, later, rfl, rfl, hs, hl⟩ := hb.exists_lexeme he hp
  obtain ⟨rfl, spells⟩ := spells_of_verdict (h l) hs hp offset
  exact .inr ⟨_, later, rfl, hl, .mk spells⟩

/-- A reader that may stop midway takes one token, or stops there. -/
theorem consumes_halting (h : Halting p) (he : p.Fails []) :
    Consumes Midway Bare Laid p fun a => One fun t => t.Spells p a := by
  intro cs ts a rest hb hp
  obtain ⟨l, offset, behind, later, rfl, rfl, hs, hl⟩ := hb.exists_lexeme he hp
  obtain v | ⟨b, hr⟩ := h l
  · obtain ⟨rfl, spells⟩ := spells_of_verdict v hs hp offset
    exact .inr ⟨_, later, rfl, hl, .mk spells⟩
  · obtain ⟨mid, e, midway⟩ := hr _ hs
    cases hp.symm.trans e
    exact .inl midway

/-- A character that is read by itself. -/
theorem consumes_char {c : Char} (hc : Dsl.punctuationChars.contains c = true) :
    Consumes D Bare Laid (char c) fun _ => One fun t => t.kind = charKind c := by
  intro cs ts a rest hb hp
  obtain ⟨l, offset, behind, later, rfl, rfl, hs, hl⟩ :=
    hb.exists_lexeme (p := char c) ⟨.bare, [], rfl⟩ hp
  by_cases e : l = .char c
  · subst e
    cases hp.symm.trans (char_ok c behind)
    exact .inr ⟨_, later, rfl, hl, .mk rfl⟩
  · obtain ⟨f, mid, hf, -⟩ := Dsl.refuses_char_lexeme hc e hs
    rw [hf] at hp
    cases hp

/-- Punctuation behind blanks takes one token of its kind. -/
theorem consumes_spaced {c : Char} (hc : Dsl.punctuationChars.contains c = true) :
    Consumes D Laid Laid (Dsl.spaced c) fun _ => One fun t => t.kind = charKind c :=
  consumes_trivia_bind (consumes_char hc)

theorem consumes_punctuation {c : Char} (hc : Dsl.punctuationChars.contains c = true) :
    Consumes D Laid Laid (Dsl.punctuation c) fun _ => One fun t => t.kind = charKind c :=
  (consumes_spaced hc).commit.marked _

/-- An argument takes one token, which spells it. -/
theorem consumes_argument (h : Lexical p) (he : p.Fails []) :
    Consumes D Laid Laid (Dsl.argument p) fun a => One fun t => t.Spells p a :=
  consumes_trivia_bind (consumes_lexical h he).commit

theorem consumes_haltingArgument (h : Halting p) (he : p.Fails []) :
    Consumes Midway Laid Laid (Dsl.argument p) fun a => One fun t => t.Spells p a :=
  consumes_trivia_bind (consumes_halting h he).commit

/-! ### Conditions -/

/-- What is read behind a field takes the tokens of a condition on it. -/
theorem consumes_conditionRest (field : String) :
    Consumes Never Laid Laid (Dsl.conditionRest field) fun r used =>
      ∀ t, t.Spells Dsl.fieldName field → Spelled r (t :: used) := by
  have comparison : Consumes Never Bare Laid
      (expecting "comparison operator" (commit Dsl.comparison)) fun c => One fun u =>
        u.Spells Dsl.comparison c :=
    (consumes_lexical Dsl.lexical_comparison ⟨_, _, rfl⟩).commit.marked _
  have operand : Consumes Never Bare Laid (commit Dsl.operand) fun v => One fun t =>
      t.Spells Dsl.operand v := (consumes_lexical Dsl.lexical_operand ⟨_, _, rfl⟩).commit
  refine consumes_trivia_bind (comparison.bind ?_)
  rintro c _ ⟨hu⟩
  refine consumes_trivia_bind (operand.bind ?_)
  rintro ⟨value, kind⟩ _ ⟨hv⟩
  exact .pure fun t ht => .condition ht hu hv

/-! ### Arguments -/

/-- What stands behind the first argument of a call: a comma and what it separates. -/
inductive Trailing : List Token → Prop where
  | mk {c : Token} {vs : List Token} (hc : c.kind = .comma) (h : Listed vs) : Trailing (c :: vs)

theorem Listed.append_sequence {as : List α} {us vs : List Token} (hu : Listed us)
    (h : Sequence (fun _ => Trailing) as vs) : Listed (us ++ vs) := by
  induction h generalizing us with
  | nil => rwa [List.append_nil]
  | cons h _ ih =>
      cases h with
      | mk hc hv =>
          rw [← List.append_assoc]
          exact ih (hu.append (by simp [hc]) hv)

/-- A first argument and others behind separators are the arguments of a call. -/
theorem arguments_of_sequence {a : Atom} {v : Token} {as : List α} {vs : List Token}
    (hv : v.isArgument = true) (h : Sequence (fun _ => Trailing) as vs)
    (one : as = [] → v.namesKeyword = isKeywordCall a) (more : as ≠ [] → isKeywordCall a = false) :
    Arguments a (v :: vs) := by
  cases h with
  | nil => exact .one hv (one rfl)
  | cons h t =>
      cases h with
      | mk hc hl => exact .more hv hc (hl.append_sequence t) (more (List.cons_ne_nil _ _))

/-- What spells a field may be an argument. -/
theorem isArgument_of_fieldName {t : Token} {s : String} (h : t.Spells Dsl.fieldName s) :
    t.isArgument = true := Token.isArgument_of_isField (spells_fieldName h)

theorem consumes_comma : Consumes D Laid Laid (Dsl.spaced ',') fun _ => One fun t => t.kind = .comma :=
  consumes_spaced (by decide)

theorem consumes_comma_bind {f : Unit → Grammar β}
    (hf : ∀ c : Token, c.kind = .comma → Consumes D Laid J (f ()) fun b vs => S b (c :: vs)) :
    Consumes D Laid J (Dsl.punctuation ',' >>= f) S := by
  refine (consumes_punctuation (by decide)).bind ?_
  rintro _ _ ⟨hc⟩
  exact hf _ hc

/-- A field and a comma at the start of the arguments. -/
theorem consumes_field {f : String → Grammar β}
    (hf : ∀ s v c, v.isArgument = true → c.kind = .comma →
      Consumes D Laid J (f s) fun b vs => S b (v :: c :: vs)) :
    Consumes D Laid J (do let s ← Dsl.argument Dsl.fieldName; Dsl.punctuation ','; f s) S := by
  refine (consumes_argument Dsl.lexical_fieldName ⟨_, _, rfl⟩).bind ?_
  rintro s _ ⟨hv⟩
  exact consumes_comma_bind fun c hc => hf s _ c (isArgument_of_fieldName hv) hc

/-- A text as an argument takes one token, a string. -/
theorem consumes_stringArgument (what : String) :
    Consumes D Laid Laid (Dsl.stringArgument what) fun _ => One fun t => t.kind = .string :=
  (consumes_argument (Dsl.lexical_stringLiteral.expecting what) ⟨_, _, rfl⟩).mono fun _ _ h => by
    cases h with
    | mk h => exact .mk (spells_stringLiteral h.marked)

/-- A parameter of a template takes a comma and the tokens behind it. -/
theorem consumes_parameter : Consumes Never Laid Laid (do Dsl.spaced ','; Dsl.parameter)
    fun _ => Trailing := by
  refine consumes_comma.bind ?_
  rintro _ _ ⟨hc⟩
  refine (consumes_argument (Dsl.lexical_nameString.expecting "parameter name") ⟨_, _, rfl⟩).bind ?_
  rintro key _ ⟨hk⟩
  have name := (spells_nameString hk.marked).1
  have equals : Consumes Midway Bare Laid (expectingChar '=' (commit (char '='))) fun _ =>
      One fun t => t.kind = .other := by
    refine ((consumes_halting Dsl.halting_equals ⟨.bare, [], rfl⟩).commit.marked _).mono ?_
    rintro _ _ ⟨h⟩
    exact .mk (spells_equals h)
  refine consumes_trivia_bind (equals.bind_of_fails ?_ fun _ cs midway => ?_)
  · rintro _ _ ⟨he⟩
    refine (consumes_argument Dsl.lexical_literalValue ⟨_, _, rfl⟩).map ?_
    rintro v _ ⟨hv⟩
    exact .mk hc (.cons (Token.isArgument_of_isField (isField_of_kind name)) (by simp [he])
      (.single (isArgument_of_literalValue hv).1))
  · exact (fails_of_yields (Dsl.midway_literalValue midway [])).bind _

/-! ### Calls -/

/-- What is read between the parentheses of a call. -/
def Inside (r : Rule) (used : List Token) : Prop := ∀ t o e, t.kind = .word → o.kind = .opening →
  e.kind = .closing → Spelled r (t :: o :: (used ++ [e]))

/-- Arguments between parentheses make a call without rules in it. -/
theorem inside_of_arguments {a : Atom} {args : List Token} (h : Arguments a args)
    (hc : condition? (.atom a none) = none) : Inside (.atom a none) args :=
  fun _ _ _ ht ho he => .call ht ho h he hc

section

variable {rule : Grammar Rule} (hr : Consumes Never Laid Laid rule Spelled)

include hr in
/-- The rule at the end of the arguments. -/
theorem consumes_body {g : Rule → β} (hg : ∀ r us, Spelled r us → S (g r) us) :
    Consumes D Laid Laid (do let r ← Dsl.argument rule; return g r) S :=
  Consumes.map (consumes_trivia_bind (hr.weaken.starting fun _ _ h => h.1).commit) hg

/-- A rule behind a separator. -/
inductive Linked (P : Token → Prop) : Rule → List Token → Prop where
  | mk {c : Token} {r : Rule} {ts : List Token} (hc : P c) (hr : Spelled r ts) : Linked P r (c :: ts)

/-- Rules behind separators are links, each with its separator and its tokens. -/
theorem Sequence.links {P : Token → Prop} {rs : List Rule} {us : List Token}
    (h : Sequence (Linked P) rs us) : ∃ links : List Link, rs = links.map Link.rule ∧
      us = links.flatMap Link.all ∧ (∀ l ∈ links, P l.separator) ∧
      ∀ l ∈ links, Spelled l.rule l.tokens := by
  induction h with
  | nil => exact ⟨[], rfl, rfl, List.forall_mem_nil _, List.forall_mem_nil _⟩
  | cons h _ ih =>
      obtain ⟨links, rfl, rfl, hs, hl⟩ := ih
      cases h with
      | mk hc hr =>
          exact ⟨⟨_, _, _⟩ :: links, rfl, rfl, List.forall_mem_cons.mpr ⟨hc, hs⟩,
            List.forall_mem_cons.mpr ⟨hr, hl⟩⟩

include hr in
/-- A member of a list takes a comma and the tokens of a rule. -/
theorem consumes_member : Consumes Never Laid Laid (Dsl.spaced ',' >>= fun _ => rule)
    (Linked fun c => c.kind = .comma) := by
  refine consumes_comma.bind ?_
  rintro _ _ ⟨hc⟩
  exact hr.mono fun r us h => .mk hc h

include hr in
/-- The rules of a quota take the tokens behind its count. -/
theorem consumes_ruleList : Consumes Never Laid Laid (Dsl.ruleList rule) fun rs used =>
    ∀ kind count t o n c e, t.kind = .word → o.kind = .opening → n.kind = .number →
      c.kind = .comma → e.kind = .closing →
      Spelled (.junction (.quota kind count) rs none) (t :: o :: n :: c :: (used ++ [e])) := by
  have bracket : Consumes Never Bare Laid (expectingChar '[' (commit (char '['))) fun _ =>
      One fun t => t.kind = .other := (consumes_char (by decide)).commit.marked _
  have rules : Consumes Never Laid Laid (separated rule (Dsl.spaced ',')) fun rs used =>
      rs = [] ∧ used = [] ∨ ∃ r us qs vs, rs = r :: qs ∧ used = us ++ vs ∧ Spelled r us ∧
        Sequence (Linked fun c => c.kind = .comma) qs vs :=
    hr.separated (consumes_member hr) (.inl ⟨rfl, rfl⟩) fun r us qs vs h hs =>
      .inr ⟨r, us, qs, vs, rfl, rfl, h, hs⟩
  refine consumes_trivia_bind (bracket.bind ?_)
  rintro _ _ ⟨hb⟩
  refine rules.bind fun rs used h => (consumes_punctuation (by decide)).bind ?_
  rintro _ _ ⟨hb'⟩
  refine .pure fun kind count t o n c e ht ho hn hc he => ?_
  obtain ⟨rfl, rfl⟩ | ⟨r, us, qs, vs, rfl, rfl, h, hs⟩ := h
  · exact .emptyQuota ht ho hn hc hb hb' he
  · obtain ⟨links, rfl, rfl, separators, members⟩ := hs.links
    have whole : Spelled (.junction (.quota kind count) _ none) _ :=
      .quota ht ho hn hc hb h separators members hb' he
    simpa using whole

/-- The arguments of a call, form by form. -/
theorem consumes_callArguments (hr : Consumes Never Laid Laid rule Spelled) (name : String)
    (form : Dsl.CallForm) :
    Consumes Midway Laid Laid (Dsl.callArguments rule name form) Inside := by
  cases form with
  | requirement _ | forEach | guarded _ =>
      exact consumes_field fun s v c hv hc => consumes_body hr fun r us h t o e ht ho he =>
        .scope ht ho hv hc (.inl rfl) h he
  | withDefault =>
      refine consumes_field fun s v c hv hc =>
        (consumes_argument Dsl.lexical_literalValue ⟨_, _, rfl⟩).bind ?_
      rintro value _ ⟨hw⟩
      have value := (isArgument_of_literalValue hw).1
      exact consumes_comma_bind fun c' hc' => consumes_body hr fun r us h t o e ht ho he =>
        .scope ht ho hv hc (.inr ⟨_, c', rfl, value, hc'⟩) h he
  | uniqueBy =>
      refine consumes_field fun s v c hv hc => (consumes_stringArgument _).map ?_
      rintro key _ ⟨hk⟩
      exact inside_of_arguments
        (.more hv hc (.single (Token.isArgument_of_kind hk (by decide))) rfl) rfl
  | length bound =>
      refine consumes_field fun s v c hv hc =>
        (consumes_haltingArgument (Dsl.halting_naturalBelow _) ⟨_, _, rfl⟩).map ?_
      rintro limit _ ⟨hn⟩
      exact inside_of_arguments
        (.more hv hc (.single (Token.isArgument_of_kind (spells_naturalBelow hn) (by decide))) rfl) rfl
  | quota kind =>
      refine Consumes.weaken ((consumes_haltingArgument (Dsl.halting_naturalBelow _)
        ⟨_, _, rfl⟩).bind_of_fails ?_ fun count cs midway => ?_)
      · rintro count _ ⟨hn⟩
        refine consumes_comma_bind fun c hc => (consumes_ruleList hr).map ?_
        exact fun rs us h t o e ht ho he =>
          h kind _ t o _ c e ht ho (spells_naturalBelow hn) hc he
      · -- a count that stops inside of a number has no comma behind it
        exact (fails_of_yields (Dsl.midway_punctuation midway (by decide) [])).bind _
  | contextual | expression =>
      refine (consumes_stringArgument _).map ?_
      rintro source _ ⟨hs⟩
      exact inside_of_arguments (.one (Token.isArgument_of_kind hs (by decide))
        (namesKeyword_of_kind (by simp [hs]) (by simp [hs]))) rfl
  | custom =>
      refine (consumes_stringArgument _).bind ?_
      rintro kind _ ⟨hk⟩
      refine consumes_comma_bind fun c hc =>
        (consumes_argument Dsl.lexical_payload ⟨_, _, rfl⟩).map ?_
      rintro value _ ⟨hv⟩
      exact inside_of_arguments (.more (Token.isArgument_of_kind hk (by decide)) hc
        (.single (Token.isArgument_of_kind (spells_payload hv) (by decide))) rfl) rfl
  | template =>
      refine (consumes_stringArgument _).bind ?_
      rintro id _ ⟨hi⟩
      refine consumes_parameter.many.weaken.map fun params us hp => inside_of_arguments ?_ rfl
      exact arguments_of_sequence (Token.isArgument_of_kind hi (by decide)) hp
        (fun _ => namesKeyword_of_kind (by simp [hi]) (by simp [hi])) fun _ => rfl
  | plain =>
      have argument : Consumes Never Laid Laid (do Dsl.trivia; Dsl.functionArgument) fun a =>
          One fun t => t.Spells Dsl.functionArgument a :=
        consumes_trivia_bind (consumes_lexical Dsl.lexical_functionArgument ⟨_, _, rfl⟩)
      have further : Consumes Never Laid Laid (do Dsl.spaced ','; Dsl.trivia; Dsl.functionArgument)
          fun _ => Trailing := by
        refine consumes_comma.bind ?_
        rintro _ _ ⟨hc⟩
        refine argument.mono ?_
        rintro a _ ⟨ha⟩
        exact .mk hc (.single (spells_functionArgument ha).1)
      have arguments : Consumes Never Laid Laid
          (separated (do Dsl.trivia; Dsl.functionArgument) (Dsl.spaced ',')) fun as =>
            Arguments (.call name as) := by
        refine argument.separated further (.none rfl) ?_
        rintro a _ as vs ⟨ha⟩ hs
        refine arguments_of_sequence (spells_functionArgument ha).1 hs ?_ ?_
        · rintro rfl
          exact (spells_functionArgument ha).2
        · intro more
          obtain ⟨b, bs, rfl⟩ := List.exists_cons_of_ne_nil more
          rfl
      exact consumes_trivia_bind (Consumes.map
        (arguments.weaken.starting fun _ _ h => h.1) fun as us h => inside_of_arguments h rfl)

/-- What is read behind the opening parenthesis of a call takes the call's tokens. -/
theorem consumes_callBody (hr : Consumes Never Laid Laid rule Spelled) (name : String) :
    Consumes Never Laid Laid (Dsl.callBody rule name) fun r used =>
      ∀ t o, t.kind = .word → o.kind = .opening → Spelled r (t :: o :: used) := by
  refine (consumes_callArguments hr name _).bind_of_fails (fun r us h =>
    (consumes_punctuation (by decide)).bind ?_) fun r cs midway => ?_
  · rintro _ _ ⟨he⟩
    exact .pure fun t o ht ho => h t o _ ht ho he
  · exact (fails_of_yields (Dsl.midway_punctuation midway (by decide) [])).bind _

end

/-! ### Chains -/

/-- The tokens of a rule around an operand so many junctions down, in front of which a `NOT` may be
put. -/
def Around (levels : Nat) (r : Rule) (ts : List Token) : Prop :=
  Spelled r ts ∧ ∀ t : Token, t.connective? = some .not → Spelled (Dsl.negateFirst levels r) (t :: ts)

section

variable {op : Connective} {levels : Nat} {r : Rule} {ts : List Token}

/-- A rule is around itself. -/
theorem Spelled.around (h : Spelled r ts) : Around 0 r ts := ⟨h, fun _ ht => .negation ht h⟩

/-- A chain is around an operand one level further down than its first member is. -/
theorem Around.chain {links : List Link} (hop : op ≠ .not) (h : Around levels r ts) (hn : links ≠ [])
    (hs : ∀ l ∈ links, l.separator.connective? = some op)
    (hl : ∀ l ∈ links, Spelled l.rule l.tokens) :
    Around (levels + 1) (.group op (r :: links.map Link.rule)) (ts ++ links.flatMap Link.all) :=
  ⟨.chain hop h.1 hn hs hl, fun t ht => .chain hop (h.2 t ht) hn hs hl⟩

theorem consumes_keyword (op : Connective) :
    Consumes D Bare Laid (Dsl.keyword op) fun _ => One fun t => t.connective? = some op := by
  have atEnd : (Dsl.keyword op).Refuses [] :=
    Dsl.refuses_keyword_of_none (Dsl.plain_of_ends Text.startsOutside_nil) op
  refine (consumes_lexical (Dsl.lexical_keyword op) atEnd.fails).mono ?_
  rintro _ _ ⟨h⟩
  exact .mk (spells_keyword h)

variable {p : Grammar Rule} (hp : Consumes Never Laid Laid p Spelled)
include hp

/-- The links of a chain take their separators and the tokens of their rules. -/
theorem consumes_linksWithin (op : Connective) (fuel : Nat) :
    Consumes Never Laid Laid (Dsl.linksWithin op p fuel)
      (Sequence (Linked fun c => c.connective? = some op)) := by
  induction fuel with
  | zero =>
      rintro cs ts _ _ h ⟨⟩
      exact .inr ⟨[], ts, rfl, h, .nil⟩
  | succ fuel ih =>
      intro cs ts rs rest h hr
      rw [Dsl.linksWithin] at hr
      cases hk : Dsl.keyword op (skipTrivia cs) with
      | fail f mid =>
          rw [hk] at hr
          cases hr
          exact .inr ⟨[], ts, rfl, h, .nil⟩
      | ok u behind =>
          rw [hk] at hr
          obtain ⟨_, more, rfl, hmore, ⟨ht⟩⟩ := (consumes_keyword op).taken h.bare hk
          have further {t : Token} (ht : t.connective? = some op) : Consumes Never Laid Laid (do
              let r ← commit p
              let rs ← Dsl.linksWithin op p fuel
              return r :: rs : Grammar (List Rule)) fun rs us =>
                Sequence (Linked fun c => c.connective? = some op) rs (t :: us) :=
            hp.commit.bind fun r us h => ih.map fun rs vs hs => .cons (.mk ht h) hs
          obtain ⟨us, later, rfl, hl, hs⟩ := (further ht).taken hmore hr
          exact .inr ⟨_, later, rfl, hl, hs⟩

/-- A chain from its first member on takes the tokens of the chain. -/
theorem consumes_chainFrom (hop : op ≠ .not) (h : Around levels r ts) :
    Consumes Never Laid Laid (Dsl.chainFrom op p r) fun q used =>
      Around (levels + q.2.toNat) q.1 (ts ++ used) := by
  have links : Consumes Never Laid Laid (Dsl.links op p) _ := fun cs =>
    consumes_linksWithin hp op (cs.length + 1) cs
  refine links.bind fun rs us hs => ?_
  cases hs with
  | nil => exact .pure (by simpa using h)
  | cons hq hs =>
      obtain ⟨links, e, e', separators, members⟩ := (Sequence.cons hq hs).links
      rw [e']
      refine .pure ?_
      rw [e, List.append_nil]
      have some : links ≠ [] := by
        rintro rfl
        cases e
      exact h.chain hop some separators members

/-- A chain takes the tokens of the rule that is read. -/
theorem consumes_chain (hop : op ≠ .not) : Consumes Never Laid Laid (Dsl.chain op p) Spelled :=
  hp.bind fun _ _ h => (consumes_chainFrom hp hop h.around).bind fun _ _ hq =>
    .pure (by simpa using hq.1)

theorem consumes_conjunction : Consumes Never Laid Laid (Dsl.conjunction p) Spelled :=
  consumes_chain hp (by decide)

theorem consumes_exclusion : Consumes Never Laid Laid (Dsl.exclusion p) Spelled :=
  consumes_chain (consumes_conjunction hp) (by decide)

theorem consumes_disjunction : Consumes Never Laid Laid (Dsl.disjunction p) Spelled :=
  consumes_chain (consumes_exclusion hp) (by decide)

theorem consumes_implication : Consumes Never Laid Laid (Dsl.implication p) Spelled :=
  consumes_chain (consumes_disjunction hp) (by decide)

/-- An expression from its first operand on takes the tokens of the whole, in front of which a `NOT`
may still be put. -/
theorem consumes_expressionFrom (h : Around 0 r ts) :
    Consumes Never Laid Laid (Dsl.expressionFrom p r) fun q used => Around q.2 q.1 (ts ++ used) := by
  refine (consumes_chainFrom hp (by decide) h).bind fun a _ ha => ?_
  refine (consumes_chainFrom (consumes_conjunction hp) (by decide) ha).bind fun b _ hb => ?_
  refine (consumes_chainFrom (consumes_exclusion hp) (by decide) hb).bind fun c _ hc => ?_
  refine (consumes_chainFrom (consumes_disjunction hp) (by decide) hc).bind fun d _ hd => ?_
  exact .pure (by simpa using hd)

end

/-! ### Operands -/

section

variable {below below₂ : Option (Grammar Rule)}
variable (hb : ∀ u ∈ below, Consumes Never Laid Laid u Spelled)
variable (hb₂ : ∀ u ∈ below₂, Consumes Never Laid Laid u Spelled)
variable (ho : ∀ u ∈ below, Dsl.Opens u)

/-- A reader one level down takes what the level allows, and nothing where there is no level left.
-/
theorem consumes_nested {f : Grammar Rule → Grammar α}
    (hb : ∀ u ∈ below, Consumes Never Laid Laid u Spelled)
    (hf : ∀ u, Consumes Never Laid Laid u Spelled → Consumes D I J (f u) Q) :
    Consumes D I J (Dsl.nested below f) Q := by
  cases below with
  | none => exact .abort _
  | some u => exact hf u (hb u rfl)

include hb in
/-- An expression takes the tokens of its rule. -/
theorem consumes_expression : Consumes Never Laid Laid (Dsl.expression below) Spelled :=
  consumes_nested hb fun _ hu => consumes_trivia_bind
    ((consumes_implication hu).starting fun _ _ h => h.1)

/-- What is read behind `NOT` at the start of parentheses, as an expression that the `NOT` is a part
of, or as a member of a group. -/
def FollowsNot : Dsl.Negated → List Token → Prop
  | .expression r, used => ∀ t : Token, t.connective? = some .not → Spelled r (t :: used)
  | .member r, used => Spelled r used

include hb hb₂ in
/-- What is read behind `NOT` takes the tokens of an expression or of a member. -/
theorem consumes_negated : Consumes Never Laid Laid (Dsl.negated below below₂) FollowsNot := by
  have first : Consumes Never Laid Laid (Dsl.nested below₂ id) Spelled :=
    consumes_nested hb₂ fun _ hu => hu
  refine consumes_nested hb fun u hu => first.bind fun r us hr =>
    (consumes_expressionFrom hu hr.around).bind fun q vs hq => ?_
  refine Consumes.peek_bind fun next => ?_
  cases next with
  | some _ => exact .pure (by simpa [FollowsNot] using hq.1)
  | none => exact .pure fun t ht => by simpa using hq.2 t ht

/-- What stands between the parentheses of a rule in parentheses of its own. -/
def Between (r : Rule) (used : List Token) : Prop :=
  ∀ o e, o.kind = .opening → e.kind = .closing → Spelled r (o :: (used ++ [e]))

include hb hb₂ in
/-- A group takes the tokens between its parentheses. -/
theorem consumes_group : Consumes Never Laid Laid (Dsl.group below below₂) Between := by
  have members {op : Connective} {t : Token} (ht : t.connective? = some op) :
      Consumes Never Laid Laid (Dsl.groupMembers below below₂ op) fun r used =>
        Between r (t :: used) := by
    have more {r : Rule} {us : List Token} (hr : Spelled r us) : Consumes Never Laid Laid
        (do return .group op (r :: (← many (do Dsl.spaced ','; Dsl.expression below))) : Grammar Rule)
        fun q vs => Between q (t :: (us ++ vs)) := by
      refine (consumes_member (consumes_expression hb)).many.map fun rs vs hs o e ho he => ?_
      obtain ⟨links, rfl, rfl, separators, members⟩ := hs.links
      rw [List.cons_append, List.append_assoc]
      exact .group ho ht hr separators members he
    rw [Dsl.groupMembers]
    split
    · rename_i hop
      subst hop
      refine (consumes_negated hb hb₂).bind fun n us hn => ?_
      cases n with
      | expression r =>
          refine .pure fun o e ho he => ?_
          rw [List.append_nil]
          exact .enclosed ho (hn t ht) (unheaded_of_not ht us) he
      | member r => exact more hn
    · exact (consumes_expression hb).bind fun r us hr => more hr
  rw [Dsl.group_members]
  refine consumes_trivia_bind ((consumes_lexical Dsl.lexical_connective ⟨_, _, rfl⟩).bind ?_)
  rintro op _ ⟨ht⟩
  have keyword := spells_connective ht
  refine consumes_trivia_bind (Consumes.peek_bind fun next => ?_)
  cases next with
  | some _ => exact .starting (.pure fun o e ho he => .emptyGroup ho keyword he) fun _ _ h => h.1
  | none => exact (members keyword).starting fun _ _ h => h.1

/-- A word starts like a name, and an opening token is a parenthesis. -/
theorem exists_start {l : Lexeme} {rest : List Char} (hs : l.Stands rest)
    (hk : kindOf l = .word ∨ kindOf l = .opening) :
    ∃ c t, l.text ++ rest = c :: t ∧ (Text.isNameStart c = true ∨ c = '(') := by
  cases l with
  | word w =>
      obtain ⟨c, t, e, hc⟩ := hs.exists_cons
      exact ⟨c, t ++ rest, congrArg (· ++ rest) e, .inl hc⟩
  | char c =>
      refine ⟨c, rest, rfl, .inr ?_⟩
      by_contra other
      simp only [kindOf, charKind, if_neg other] at hk
      split at hk
      · simp at hk
      split at hk <;> simp at hk
  | _ => simp [kindOf] at hk

include ho in
/-- Where no group is read, a keyword in parentheses is the field of a comparison by a symbol. -/
theorem unheaded_of_refuses {cs : List Char} {ts later : List Token} (h : Laid cs (ts ++ later))
    (hs : Starts ts) (hg : (Dsl.group below below₂).Refuses cs) : Unheaded ts := by
  rintro t u rest rfl op ht hop
  have name : u.kind = .opening ∨ u.isComparison = true := by
    cases hs with
    | opening h => rw [kind_of_connective? ht] at h; cases h
    | negation h => exact absurd (Option.some.inj (ht.symm.trans h)) hop
    | name _ hu => exact hu
  obtain ⟨-, e⟩ | ⟨l, offset, behind, more, e, et, hl, laid⟩ := h.bare.cases
  · cases e
  obtain ⟨rfl, rfl⟩ := List.cons.inj et
  obtain ⟨w, rfl, hw⟩ := exists_word_of_connective? ht
  obtain ⟨-, e'⟩ | ⟨l', offset', behind', more', e', et', hl', -⟩ := laid.bare.cases
  · cases e'
  obtain ⟨rfl, -⟩ := List.cons.inj et'
  by_contra other
  -- what stands behind the keyword is a word or a parenthesis, so that a group is read
  have kind : kindOf l' = .word ∨ kindOf l' = .opening := by
    refine name.symm.imp_left fun comparison => ?_
    rw [Token.isComparison, decide_eq_false other, Bool.false_or, Bool.and_eq_true] at comparison
    exact of_decide_eq_true comparison.1
  obtain ⟨c, v, ec, hc⟩ := exists_start hl' kind
  rw [ec] at e'
  rw [Refuses, ← Dsl.group_skipTrivia, e] at hg
  exact Dsl.not_refuses_group ho hw hop hl.2 e' hc hg

include hb hb₂ ho in
/-- A rule in parentheses takes its own tokens and the two parentheses. -/
theorem consumes_parenthesized :
    Consumes Never Bare Laid (Dsl.parenthesized below below₂) Spelled := by
  refine (consumes_char (by decide)).bind ?_
  rintro _ _ ⟨opening⟩
  have close {r : Rule} {us : List Token} (hr : Between r us) :
      Consumes Never Laid Laid (do Dsl.punctuation ')'; return r : Grammar Rule)
        fun q vs => ∀ o : Token, o.kind = .opening → Spelled q (o :: (us ++ vs)) := by
    refine (consumes_punctuation (by decide)).bind ?_
    rintro _ _ ⟨closing⟩
    exact .pure fun o ho => hr o _ ho closing
  have expression : Consumes Never
      (fun cs ts => Laid cs ts ∧ (Dsl.group below below₂).Refuses cs) Laid
      (commit (Dsl.expression below)) Between := by
    rintro cs ts r rest ⟨laid, refused⟩ hr
    obtain ⟨us, later, rfl, hl, spelled⟩ := (consumes_expression hb).commit.taken laid hr
    exact .inr ⟨us, later, rfl, hl, fun o e ho' he =>
      .enclosed ho' spelled (unheaded_of_refuses ho laid spelled.starts refused) he⟩
  refine (consumes_group hb hb₂).optional_bind (fun r us hr => ?_) ?_
  · exact (close hr).mono fun q vs hq => hq _ opening
  · exact expression.bind fun r us hr => (close hr).mono fun q vs hq => hq _ opening

include hb in
/-- What starts with a name, a call or a condition, takes its tokens. -/
theorem consumes_named : Consumes Never Bare Laid (Dsl.named below) Spelled := by
  refine (consumes_lexical Dsl.lexical_nameString ⟨_, _, rfl⟩).bind ?_
  rintro name _ ⟨ht⟩
  refine (consumes_spaced (by decide)).optional_bind ?_ ?_
  · rintro _ _ ⟨opening⟩
    exact (consumes_callBody (consumes_expression hb) name).mono fun r us h =>
      h _ _ (spells_nameString ht).1 opening
  · exact ((consumes_conditionRest name).starting fun _ _ h => h.1).mono fun r us h =>
      h _ (fieldName_of_nameString ht)

theorem consumes_referenceCondition : Consumes Never Bare Laid Dsl.referenceCondition Spelled := by
  refine (consumes_lexical Dsl.lexical_fieldReference ⟨_, _, rfl⟩).bind ?_
  rintro field _ ⟨ht⟩
  exact (consumes_conditionRest field).mono fun r us h => h _ (fieldName_of_fieldReference ht)

include hb hb₂ ho in
/-- A primary rule takes its tokens. -/
theorem consumes_primary : Consumes Never Laid Laid (Dsl.primary below below₂) Spelled :=
  consumes_trivia_bind (((consumes_parenthesized hb hb₂ ho).orElse
    (consumes_referenceCondition.orElse (consumes_named hb))).marked _)

include hb hb₂ ho in
/-- An operand takes its tokens. -/
theorem consumes_operandWith : Consumes Never Laid Laid (Dsl.operandWith below below₂) Spelled := by
  refine consumes_trivia_bind ((consumes_keyword .not).optional_bind ?_ ?_)
  · rintro _ _ ⟨ht⟩
    exact (consumes_nested hb fun _ hu => hu.commit).map fun r us hr => .negation ht hr
  · exact (consumes_primary hb hb₂ ho).starting fun _ _ h => h.1.1

end

/-! ### Whole texts -/

/-- **The tokens that are consumed for an operand are those that it is read from**, whatever it
nests. -/
theorem consumes_unary (levels : Nat) : Consumes Never Laid Laid (Dsl.unary levels) Spelled := by
  induction levels using Nat.strong_induction_on with
  | _ levels ih =>
      have lower {m : Nat} (hm : m ≤ levels) :
          ∀ u ∈ Dsl.levelBelow m, Consumes Never Laid Laid u Spelled := by
        intro u hu
        cases m with
        | zero => cases hu
        | succ m =>
            cases hu
            exact ih m hm
      rw [Dsl.unary_eq]
      exact consumes_operandWith (lower (Nat.le_refl levels)) (lower (Nat.sub_le levels 1))
        (Dsl.opens_levelBelow levels)

/-- **The tokens of an accepted text are those that its rule is read from.** -/
theorem spelled_of_readStructure {text : List Char} {r : Rule}
    (h : Dsl.readStructure text = .ok (some r)) : Spelled r (tokens text) := by
  have laid : Laid text (tokens text) := ⟨0, 0, tokenized_of_readStructure h⟩
  obtain ⟨-, rest, top, ended⟩ := Dsl.document_eq_some_iff.mp (Dsl.document_of_readStructure h)
  rw [Dsl.topExpression_skipTrivia] at top
  obtain ⟨used, later, e, ⟨n, offset, behind⟩, spelled⟩ :=
    (consumes_implication (consumes_unary _)).taken laid.bare.1 top
  rw [behind.eq_nil_of_skipTrivia ended, List.append_nil] at e
  rwa [e]

/-- There are no tokens in a text without a rule. -/
theorem tokens_of_readStructure_none {text : List Char} (h : Dsl.readStructure text = .ok none) :
    tokens text = [] :=
  (tokenized_of_readStructure h).eq_nil_of_skipTrivia
    (Dsl.document_eq_none_iff.mp (Dsl.document_of_readStructure h))

end Rulebook.Lint
