import Rulebook.Proofs.Dsl.Spacing
import Rulebook.Proofs.Lint.Heads

/-!
# Rulebook — Proofs — Dsl — Enclosed

A text in parentheses of its own.  The grammar first tries to read a group behind the parenthesis,
then an expression, and `NOT` at the start of a group may belong to the first operand of an
expression: that operand is read first, the chains are built around it, and the `NOT` is put around
the operand afterwards.

* `parse_enclosed_negation`: with `NOT` at its start a text means the same in parentheses.
* `parse_enclosed`: so does a text that starts with no keyword, or with one that is the field of a
  comparison by a symbol.
* `parse_enclosed_call`: a call of a keyword's name is taken for a group.

Parentheses take a level, so that a text in them may nest too deep (`TooNested`).
-/

namespace Rulebook.Dsl

open Grammar
open Lint (Token)

/-! ### Texts in parentheses -/

/-- A closing parenthesis behind the text would be a part of its last comment. -/
def endsInComment (text : String) : Bool :=
  comments (text.toList ++ [')']) != comments text.toList

/-- The closing parenthesis, on a line of its own behind a comment. -/
def closingText (text : String) : String := if endsInComment text then "\n)" else ")"

/-- The text in parentheses. -/
def enclosed (text : String) : String := "(" ++ text ++ closingText text

/-- The reader runs out of levels in the text. -/
def TooNested (text : String) : Prop := ∃ fault found location,
  parse text = .error ⟨.syntaxError fault found, location⟩ ∧
    Fault.label? fault.marks = some "nesting depth"

section

variable {text : String}

theorem toList_enclosed (text : String) :
    (enclosed text).toList = '(' :: (text.toList ++ (closingText text).toList) := by
  simp [enclosed]

theorem closingText_cases (text : String) :
    (endsInComment text = true ∧ (closingText text).toList = ['\n', ')']) ∨
      (endsInComment text = false ∧ (closingText text).toList = [')']) := by
  rw [closingText]
  cases endsInComment text with
  | true => exact .inl ⟨rfl, rfl⟩
  | false => exact .inr ⟨rfl, rfl⟩

theorem continues_closingText (text : String) :
    Continues (closingText text).toList text.toList := by
  obtain ⟨-, e⟩ | ⟨he, -⟩ := closingText_cases text
  · exact .inl (.inr ⟨[')'], .inl e⟩)
  · have same : comments (text.toList ++ [')']) = comments text.toList := by
      simpa [endsInComment] using he
    exact .inr (.inr (congrArg (List.map Comment.text) same))

theorem breaks_closingText (text : String) : Lint.Breaks (closingText text).toList := by
  obtain ⟨-, e⟩ | ⟨-, e⟩ := closingText_cases text <;>
  · rw [e]
    rintro c ⟨⟩
    decide

theorem skipTrivia_closingText (text : String) :
    skipTrivia (closingText text).toList = [')'] := by
  obtain ⟨-, e⟩ | ⟨-, e⟩ := closingText_cases text
  · rw [e, skipTrivia_lineFeed, skipTrivia_close]
  · rw [e, skipTrivia_close]

theorem plain_close : Plain [')'] := plain_of_ends (ends_close [])

theorem recordTexts_closingText (text : String) : recordTexts (closingText text).toList = [] := by
  obtain ⟨-, e⟩ | ⟨-, e⟩ := closingText_cases text
  · rw [e]
    rfl
  · rw [e]
    rfl

end

/-! ### The parenthesis and its partner -/

section

variable {below below₂ : Option (Grammar Rule)} {cs : List Char} {r : Rule}

/-- What is read in parentheses is an operand. -/
theorem reaches_operandWith {A : List Char → Prop}
    (h : (parenthesized below below₂ ('(' :: cs)).Reaches r A) :
    (operandWith below below₂ ('(' :: cs)).Reaches r A := by
  have solid : skipTrivia ('(' :: cs) = '(' :: cs := skipTrivia_solid cs (by decide)
  have plain : Plain ('(' :: cs) := plain_of_ends (Text.startsOutside_cons (by decide))
  rw [operandWith, trivia_bind, solid,
    bind_ok (optional_of_refuses (refuses_keyword_of_none plain .not))]
  show (primary below below₂ ('(' :: cs)).Reaches r A
  rw [primary, trivia_bind, solid]
  exact (h.orElse _).marked _

/-- The closing parenthesis ends what is in parentheses. -/
theorem reaches_close {p : Grammar Rule}
    (h : (p cs).Reaches r fun rest => skipTrivia rest = [')']) :
    ((do let r ← p; punctuation ')'; return r : Grammar Rule) cs).Reaches r (· = []) := by
  refine h.bind fun rest hr => ?_
  rw [bind_ok (punctuation_ok hr)]
  exact .ok rfl

/-- An expression in parentheses, where no group is. -/
theorem reaches_expression (hg : (group below below₂).Refuses cs)
    (h : (expression below cs).Reaches r fun rest => skipTrivia rest = [')']) :
    (parenthesized below below₂ ('(' :: cs)).Reaches r (· = []) := by
  rw [parenthesized, bind_ok (char_ok _ _), bind_ok (optional_of_refuses hg)]
  exact reaches_close h.commit

/-- A group in parentheses. -/
theorem reaches_group
    (h : (group below below₂ cs).Reaches r fun rest => skipTrivia rest = [')']) :
    (parenthesized below below₂ ('(' :: cs)).Reaches r (· = []) := by
  rw [parenthesized, bind_ok (char_ok _ _)]
  exact h.optional.bind fun rest hr => reaches_close (p := pure r) (.ok hr)

end

/-! ### Both texts -/

theorem tooNested_of_document {text : String} (h : (document text.toList).TooDeep) :
    TooNested text := by
  obtain ⟨f, rest, hf, -, hl⟩ := h
  have failed : readStructure text.toList = .error ⟨.syntaxError f rest.head?,
      Text.locate text.toList (offsetOf text.toList rest)⟩ := by rw [readStructure, hf]
  exact ⟨f, _, _, by rw [parse, read, failed]; rfl, hl⟩

/-- An operand alone is a rule. -/
theorem reaches_document {cs : List Char} {r : Rule} (hs : skipTrivia cs = cs) (hne : cs ≠ [])
    (h : (unary (textNestingLimit - 1) cs).Reaches r (· = [])) :
    document cs = .ok (some r) [] ∨ (document cs).TooDeep := by
  obtain ⟨rest, hu, rfl⟩ | deep := h.cases
  · refine .inl (document_eq_some_iff.mpr ⟨by rwa [hs], [], ?_, rfl⟩)
    rw [topExpression_skipTrivia, hs]
    have single : (implication (unary (textNestingLimit - 1)) cs).Yields (some r) [] :=
      implication_single hu (plain_of_ends Text.startsOutside_nil)
    exact single
  · obtain ⟨c, t, rfl⟩ := List.exists_cons_of_ne_nil hne
    have top : (topExpression (c :: t)).TooDeep := by
      have whole := topExpression_skipTrivia (c :: t)
      rw [hs] at whole
      rw [whole]
      exact tooDeep_bind (tooDeep_bind (tooDeep_bind (tooDeep_bind deep _) _) _) _
    rw [document_of_cons hs]
    exact .inr (tooDeep_bind top _)

/-- A text that is read as the rule, and the same text behind an opening parenthesis, up to the
closing one. -/
structure Encloses (r : Rule) (cs ds : List Char) : Prop where
  facing : Facing [')'] 0 cs ds
  read : ∃ rest, implication (unary (textNestingLimit - 1)) (skipTrivia cs) = .ok r rest ∧
    skipTrivia rest = []

section

variable {text : String} {r : Rule} {cs ds : List Char}

/-- What is read in the parentheses is what is read of the whole. -/
theorem parse_enclosed_of (hm : ∀ c ∈ comments text.toList, c.record? = none)
    (h : parse text = .ok (some r)) (hd : ¬ TooNested (enclosed text))
    (hp : ∀ ds, Encloses r text.toList ds →
      (parenthesized (levelBelow (textNestingLimit - 1)) (levelBelow (textNestingLimit - 1 - 1))
        ('(' :: ds)).Reaches r (· = [])) :
    parse (enclosed text) = .ok (some r) := by
  have bare : recordTexts text.toList = [] := by
    rw [← filterMap_record?, List.filterMap_eq_nil_iff]
    exact hm
  have whole := (parse_eq_some_iff bare).mp h
  have closes := Lint.closes_of_cut (cut_of_readStructure (readStructure_eq_ok_iff.mpr whole)) .nil
  have padded := padded_append closes (continues_closingText text)
  obtain ⟨hne, rest, top, ended⟩ := document_eq_some_iff.mp whole
  rw [topExpression_skipTrivia] at top
  have parallel := padded.parallel (breaks_closingText text) closes
  rw [skipTrivia_closingText] at parallel
  have facing : Facing [')'] 0 text.toList _ := ⟨parallel, hne⟩
  have operand := reaches_operandWith (hp _ ⟨facing, rest, top, ended⟩)
  rw [← unary_eq] at operand
  have records : recordTexts (enclosed text).toList = [] := by
    rw [toList_enclosed, recordTexts_of_ne (by decide) (by decide), padded.recordTexts closes, bare,
      recordTexts_closingText]
    rfl
  rw [parse_eq_some_iff records, toList_enclosed]
  have solid := skipTrivia_solid (text.toList ++ (closingText text).toList) (c := '(') (by decide)
  refine (reaches_document solid (List.cons_ne_nil _ _) operand).resolve_right fun deep => hd ?_
  rw [← toList_enclosed] at deep
  exact tooNested_of_document deep

/-- Where no group is read behind the parenthesis, the whole expression is. -/
theorem Encloses.reaches_expression (h : Encloses r cs ds) :
    (expression (levelBelow (textNestingLimit - 1)) ds).Reaches r
      fun rest => skipTrivia rest = [')'] := by
  obtain ⟨rest, read, ended⟩ := h.read
  have level : textNestingLimit - 2 < textNestingLimit - 1 → True := fun _ => trivial
  have reaches := Outcome.Reaches.of_or (h.facing.expression (fun _ => plain_close) level read)
  exact reaches.mono fun _ t => t.tail_of_nil ended

/-! ### The first word -/

/-- A keyword at the start of both texts. -/
theorem Facing.exists_keyword {tail : List Char} {n : Nat} {op : Connective}
    (h : Facing tail n cs ds) (hk : Connective.ofKeyword? (headWord (skipTrivia cs)) = some op) :
    ∃ w mid mid', skipTrivia cs = w ++ mid ∧ skipTrivia ds = w ++ mid' ∧
      Connective.ofKeyword? w = some op ∧ Ends mid ∧ Ends mid' ∧ Parallel tail n mid mid' := by
  obtain ⟨l, m, mid, mid', e, e', sc, sd, hn, t⟩ := h.exists_lexeme
  rw [e] at hk
  cases hl : l.isWord with
  | false =>
      obtain ⟨c, u, e, hc⟩ := sc.exists_plain hl
      rw [e, plain_of_start hc] at hk
      cases hk
  | true =>
      cases l with
      | word w =>
          obtain rfl : n = m := hn
          have word : headWord (w ++ mid) = w :=
            headWord_append (fun c hc => isNamePart_of_isName sc.1 c hc) sc.2
          exact ⟨w, mid, mid', e, e', by rwa [Lexeme.text, word] at hk, sc.2, sd.2, t⟩
      | _ => cases hl

/-- The second text starts with no keyword if the first one does not. -/
theorem Facing.plain {tail : List Char} {n : Nat} (h : Facing tail n cs ds)
    (hp : Plain (skipTrivia cs)) : Plain (skipTrivia ds) := by
  obtain ⟨l, m, mid, mid', e, e', sc, sd, -, -⟩ := h.exists_lexeme
  rw [e] at hp
  rw [e']
  cases hl : l.isWord with
  | false =>
      obtain ⟨c, u, e, hc⟩ := sd.exists_plain hl
      exact e ▸ plain_of_start hc
  | true =>
      cases l with
      | word w =>
          have part : ∀ c ∈ w, Text.isNamePart c = true := isNamePart_of_isName sc.1
          rw [Plain, Lexeme.text, headWord_append part sc.2] at hp
          rwa [Plain, Lexeme.text, headWord_append part sd.2]
      | _ => cases hl

/-- Where no parenthesis is open none is closed. -/
theorem Facing.ne_close {tail : List Char} (h : Facing tail 0 cs ds) (u : List Char) :
    skipTrivia ds ≠ ')' :: u := by
  obtain ⟨l, m, mid, mid', -, e', -, sd, hn, -⟩ := h.exists_lexeme
  have other : l ≠ .char ')' := by
    rintro rfl
    exact absurd hn (by simp [Lexeme.opened, Lexeme.closed])
  obtain ⟨f, v, hf, -⟩ := refuses_char_lexeme (by decide) other sd
  intro e
  rw [← e', e, char_ok] at hf
  cases hf

/-! ### The first operand -/

theorem implication_eq_ok {unary : Grammar Rule} {rest : List Char}
    (h : implication unary cs = .ok r rest) : ∃ first mid n, unary cs = .ok first mid ∧
      expressionFrom unary first mid = .ok (r, n) rest := by
  rw [implication_eq] at h
  obtain ⟨first, mid, hu, h⟩ := bind_eq_ok h
  obtain ⟨⟨q, n⟩, end_, he, h⟩ := bind_eq_ok h
  cases h
  exact ⟨first, mid, n, hu, he⟩

namespace Encloses

theorem exists_operand (h : Encloses r cs ds) : ∃ first mid n rest,
    unary (textNestingLimit - 1) (skipTrivia cs) = .ok first mid ∧
      expressionFrom (unary (textNestingLimit - 1)) first mid = .ok (r, n) rest ∧
      skipTrivia rest = [] := by
  obtain ⟨rest, read, ended⟩ := h.read
  obtain ⟨first, mid, n, hu, he⟩ := implication_eq_ok read
  exact ⟨first, mid, n, rest, hu, he, ended⟩

/-- An operand starts with a name, a parenthesis or a reference. -/
theorem exists_start (h : Encloses r cs ds) : ∃ c t, skipTrivia cs = c :: t ∧
    (Text.isNameStart c = true ∨ c = '(' ∨ c = '$') := by
  obtain ⟨c, t, -, e, -, solid⟩ := h.facing.exists_solid
  refine ⟨c, t, e, ?_⟩
  by_contra none
  obtain ⟨name, paren, dollar⟩ : Text.isNameStart c = false ∧ c ≠ '(' ∧ c ≠ '$' := by
    simpa [not_or] using none
  obtain ⟨first, mid, -, -, hu, -, -⟩ := h.exists_operand
  rw [e, unary_eq] at hu
  obtain ⟨f, u, hf, -⟩ : (operandWith (levelBelow (textNestingLimit - 1))
      (levelBelow (textNestingLimit - 1 - 1))).Refuses (c :: t) :=
    refuses_operandWith solid name paren dollar
  rw [hu] at hf
  cases hf

/-- The linter's first token is a keyword where the grammar reads one. -/
theorem connective?_tokens (h : Encloses r cs ds) :
    (Lint.tokens cs).head?.bind Token.connective? =
      Connective.ofKeyword? (headWord (skipTrivia cs)) := by
  obtain ⟨c, t, e, hc⟩ := h.exists_start
  have few : Text.isBlank c = false ∧ c ≠ '#' := by
    rcases hc with name | rfl | rfl
    · refine ⟨isBlank_of_isNamePart (Text.isNamePart_of_isNameStart name), ?_⟩
      rintro rfl
      exact absurd name (by decide)
    · decide
    · decide
  rw [e]
  exact Lint.connective?_tokens e few.1 few.2

end Encloses

/-! ### A keyword that heads no group -/

theorem refuses_expression_start {k : Nat} {c : Char} {t : List Char} (hs : isSolid c = true)
    (hn : Text.isNameStart c = false) (hp : c ≠ '(') (hd : c ≠ '$') :
    (expression (levelBelow (k + 1))).Refuses (c :: t) := by
  have operand : Refuses (unary k) (c :: t) := by
    rw [unary_eq]
    exact refuses_operandWith hs hn hp hd
  refine Refuses.of_bind (p := trivia) rfl ?_
  rw [skipTrivia_solid t hs]
  exact (((operand.bind _).bind _).bind _).bind _

/-- A keyword in front of what starts no operand heads no group. -/
theorem refuses_group {k : Nat} {op : Connective} {w mid t : List Char} {c : Char}
    {below₂ : Option (Grammar Rule)} (e : skipTrivia cs = w ++ mid)
    (hw : Connective.ofKeyword? w = some op) (hop : op ≠ .not) (hm : Ends mid)
    (hc : skipTrivia mid = c :: t) (hs : isSolid c = true) (hn : Text.isNameStart c = false)
    (hp : c ∉ ['(', '$', ')']) :
    (group (levelBelow (k + 1)) below₂).Refuses cs := by
  simp only [List.mem_cons, List.not_mem_nil, or_false, not_or] at hp
  have stop : ∀ u, skipTrivia mid ≠ ')' :: u := fun u e => hp.2.2 (List.cons.inj (hc ▸ e)).1
  rw [Refuses, ← group_skipTrivia, e, group_member hw hm stop, if_neg hop, hc]
  exact (refuses_expression_start hs hn hp.1 hp.2.1).bind _

/-- The tokens start with no keyword, or with one other than `NOT` in front of a comparison
symbol. -/
def Unheaded (tokens : List Token) : Prop := ∀ op ∈ tokens.head?.bind Token.connective?,
  op ≠ .not ∧ ∃ t ∈ tokens[1]?, t.kind = .comparison

/-- What ends a name in front of a comparison symbol starts no operand. -/
theorem start_of_second {mid : List Char} {fuel offset : Nat} (h : mid.length < fuel) {t : Token}
    (ht : (Lint.tokensWithin fuel offset mid).head? = some t) (hk : t.kind = .comparison) :
    ∃ c u, skipTrivia mid = c :: u ∧ Text.isNameStart c = false ∧ c ∉ ['(', '$', ')'] := by
  obtain ⟨c, u, e, hc⟩ := Lint.start_of_comparison h ht hk
  refine ⟨c, u, e, ?_, ?_⟩
  · obtain blank | few := hc
    · cases hn : Text.isNameStart c with
      | false => rfl
      | true =>
          rw [isBlank_of_isNamePart (Text.isNamePart_of_isNameStart hn)] at blank
          cases blank
    · exact Lexeme.outside_of_contains (by decide) few
  · obtain blank | few := hc
    · exact Text.not_mem_of_class (p := Text.isBlank) (by decide) blank
    · exact Text.not_mem_of_class (p := ['#', '>', '<', '=', '!'].contains) (by decide) few

/-- Where no keyword heads a group the grammar reads none. -/
theorem Encloses.refuses_group (h : Encloses r cs ds) (hf : Unheaded (Lint.tokens cs)) :
    (group (levelBelow (textNestingLimit - 1)) (levelBelow (textNestingLimit - 1 - 1))).Refuses
      ds := by
  rw [Unheaded, h.connective?_tokens] at hf
  cases hk : Connective.ofKeyword? (headWord (skipTrivia cs)) with
  | none =>
      have plain : Plain (skipTrivia ds) := h.facing.plain hk
      exact Refuses.of_bind (p := trivia) rfl ((refuses_connective plain).bind _)
  | some op =>
      obtain ⟨hop, t, ht, comparison⟩ := hf op hk
      obtain ⟨w, mid, mid', e, e', hw, ends, ends', parallel⟩ := h.facing.exists_keyword hk
      obtain ⟨start, fuel, offset, enough, tokens⟩ := Lint.exists_tokens_name e
        (isName_of_ofKeyword? hw) ends
      have second : (Lint.tokensWithin fuel offset mid).head? = some t := by
        rw [tokens] at ht
        simpa [List.head?_eq_getElem?] using ht
      obtain ⟨c, u, hc, name, few⟩ := start_of_second enough second comparison
      have facing : Facing [')'] 0 mid mid' := ⟨parallel, hc ▸ List.cons_ne_nil c u⟩
      obtain ⟨d, u', t', hd, hd', solid⟩ := facing.exists_solid
      obtain rfl : c = d := (List.cons.inj (hc ▸ hd)).1
      exact Dsl.refuses_group e' hw hop ends' hd' solid name few

/-! ### Redundant parentheses -/

/-- **A text without a keyword at its start means the same in parentheses.**  A keyword may stand
there as the field of a comparison by a symbol. -/
theorem parse_enclosed {text : String} (h : parse text = .ok (some r))
    (hm : ∀ c ∈ comments text.toList, c.record? = none)
    (hf : Unheaded (Lint.tokens text.toList)) (hd : ¬ TooNested (enclosed text)) :
    parse (enclosed text) = .ok (some r) :=
  parse_enclosed_of hm h hd fun _ e =>
    Dsl.reaches_expression (e.refuses_group hf) e.reaches_expression

/-- A first field that is called like a connective may be compared, and a comment may end the text.
-/
theorem parse_enclosed_compared :
    ∃ r, parse "Or == 1 or f(a) # b" = .ok (some r) ∧
      parse "(Or == 1 or f(a) # b\n)" = .ok (some r) := by
  have bare : parse "Or == 1 or f(a) # b" = .ok (some _) := rfl
  have read : parse "(Or == 1 or f(a) # b\n)" = .ok (some _) := rfl
  refine ⟨_, bare, parse_enclosed bare (by decide) ?_ ?_⟩
  · rintro op ⟨⟩
    exact ⟨by decide, _, rfl, rfl⟩
  · rintro ⟨f, c, l, e, -⟩
    cases read.symm.trans e

/-- The name of a call is taken for the head of a group. -/
theorem parse_enclosed_call :
    let text := "or(and)"
    comments text.toList = [] ∧
      (Lint.tokens text.toList).head?.bind Token.connective? ≠ some .not ∧
      parse text = .ok (some (.atom (.call "or" [⟨.string "and", .fieldReference⟩]) none)) ∧
      parse (enclosed text) = .ok (some (.group .or [.group .and []])) :=
  ⟨rfl, by decide, rfl, rfl⟩

/-! ### `NOT` at the start -/

/-- Behind `NOT` an operand is read one level down. -/
theorem unary_not {k : Nat} {w mid : List Char} {q : Rule} {rest : List Char}
    (e : skipTrivia cs = w ++ mid) (hw : Connective.ofKeyword? w = some .not) (hm : Ends mid)
    (h : unary (k + 1) cs = .ok q rest) : ∃ x, q = .group .not [x] ∧ unary k mid = .ok x rest := by
  rw [unary_eq, operandWith, trivia_bind, e, bind_ok (optional_of_ok (keyword_ok hw hm))] at h
  obtain ⟨x, t, hx, h⟩ := bind_eq_ok h
  cases h
  exact ⟨x, rfl, commit_eq_ok hx⟩

/-- Behind `NOT` at the start of parentheses the operand is read two levels down, and the chains
around it one level down. -/
theorem reaches_negated {k : Nat} {x : Rule} {mid mid' t : List Char}
    (h : Facing [')'] 0 mid mid') (hx : Dsl.unary (k + 1) mid = .ok x t)
    (around : expressionFrom (Dsl.unary (k + 2)) x t = .ok (r, n) rest)
    (ended : skipTrivia rest = []) :
    (negated (levelBelow (k + 2)) (levelBelow (k + 1)) (skipTrivia mid')).Reaches
      (.expression (negateFirst n r)) fun rest => skipTrivia rest = [')'] := by
  have level : k < k + 1 → True := fun _ => trivial
  have operand := Outcome.Reaches.of_or (h.unary level hx)
  rw [← unary_skipTrivia] at operand
  refine Outcome.Reaches.bind operand fun t' ht => ?_
  have level : k + 1 < k + 2 → True := fun _ => trivial
  have chains := ht.expressionFrom (fun _ => plain_close) level around
  refine (Outcome.Reaches.of_or chains).bind fun rest' hr => ?_
  have last := hr.tail_of_nil ended
  have comma : (spaced ',').Refuses rest' := refuses_spaced fun u e => by rw [last] at e; cases e
  have alone : (optional (peek (spaced ',')) rest').Reaches none (· = rest') := by
    rw [optional_of_refuses comma.peek]
    exact .ok rfl
  refine Outcome.Reaches.bind alone ?_
  rintro _ rfl
  exact .ok last

/-- Behind `NOT` at the start of parentheses comes an expression, whose first operand it belongs
to. -/
theorem Encloses.reaches_group (h : Encloses r cs ds)
    (hk : Connective.ofKeyword? (headWord (skipTrivia cs)) = some .not) :
    (group (levelBelow (textNestingLimit - 1)) (levelBelow (textNestingLimit - 1 - 1)) ds).Reaches r
      fun rest => skipTrivia rest = [')'] := by
  obtain ⟨w, mid, mid', e, e', hw, ends, ends', parallel⟩ := h.facing.exists_keyword hk
  obtain ⟨q, t, n, rest, hq, around, ended⟩ := h.exists_operand
  rw [unary_skipTrivia] at hq
  obtain ⟨x, rfl, hx⟩ := unary_not e hw ends hq
  have negated := congrFun (expressionFrom_negateFirst (Dsl.unary (textNestingLimit - 1)) x) t
  obtain ⟨⟨q, n⟩, rest, inner, done⟩ := bind_eq_ok (negated.symm.trans around)
  cases done
  have facing : Facing [')'] 0 mid mid' := ⟨parallel, skipTrivia_ne_of_unary hx⟩
  rw [← group_skipTrivia, e', group_member hw ends' facing.ne_close, if_pos rfl]
  exact Outcome.Reaches.bind (reaches_negated facing hx inner ended) fun rest hr => .ok hr

/-- **`NOT` at the start of parentheses binds as it does elsewhere**: to read the operand behind it
first, build the chains around that and negate it afterwards comes to the same as to read `NOT`
with the operand. -/
theorem parse_enclosed_negation {text : String} (h : parse text = .ok (some r))
    (hm : ∀ c ∈ comments text.toList, c.record? = none)
    (hn : (Lint.tokens text.toList).head?.bind Token.connective? = some .not)
    (hd : ¬ TooNested (enclosed text)) : parse (enclosed text) = .ok (some r) :=
  parse_enclosed_of hm h hd fun _ e =>
    Dsl.reaches_group (e.reaches_group (e.connective?_tokens ▸ hn))

/-- The first of several operands is negated, and a comment ends the text. -/
theorem parse_enclosed_negation_chain :
    ∃ r, parse "not f(a) and NOT g(b) xor h(c) # d" = .ok (some r) ∧
      parse "(not f(a) and NOT g(b) xor h(c) # d\n)" = .ok (some r) := by
  have bare : parse "not f(a) and NOT g(b) xor h(c) # d" = .ok (some _) := rfl
  have read : parse "(not f(a) and NOT g(b) xor h(c) # d\n)" = .ok (some _) := rfl
  refine ⟨_, bare, parse_enclosed_negation bare (by decide) rfl ?_⟩
  rintro ⟨f, c, l, e, -⟩
  cases read.symm.trans e

end

end Rulebook.Dsl
