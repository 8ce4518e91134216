import Rulebook.Proofs.Lint.Tokenized

/-!
# Rulebook — Proofs — Lint — Spelled

The tokens that a rule is read from, by the form that the rule has in the text (`Spelled`).  A group
and an expression in parentheses are told apart by what follows the parenthesis: the keyword at the
head of a group stands in front of an operand, that at the start of an expression in front of a
comparison symbol.

What is not a rule is told as far as the linter can see it: the arguments of a call are values with
separators between them (`Arguments`).
-/

namespace Rulebook.Lint

open Dsl (Grammar Lexeme)
open Dsl.Grammar (bind_eq_ok marked_eq_ok commit_eq_ok orElse_eq_ok char_eq_ok exact_eq_ok
  notBefore_eq_ok)

variable {α β : Type} {p q : Grammar α} {a : α} {t : Token}

/-! ### Tokens with a value -/

/-- The token is a lexeme that is read as the value. -/
def Token.Spells (t : Token) (p : Grammar α) (a : α) : Prop :=
  ∃ l offset, t = tokenOf l offset ∧ l.Stands [] ∧ p l.text = .ok a []

namespace Token.Spells

theorem marked {m : Dsl.Mark} (h : t.Spells (Dsl.Grammar.marked m p) a) : t.Spells p a := by
  obtain ⟨l, offset, ht, hs, h⟩ := h
  exact ⟨l, offset, ht, hs, marked_eq_ok h⟩

/-- What spells a value of one alternative or the other spells it of one of them. -/
theorem orElse (h : t.Spells (p <|> q) a) : t.Spells p a ∨ t.Spells q a := by
  obtain ⟨l, offset, ht, hs, h⟩ := h
  exact (orElse_eq_ok h).imp (fun h => ⟨l, offset, ht, hs, h⟩) fun h => ⟨l, offset, ht, hs, h⟩

/-- What spells an image spells what it is the image of. -/
theorem map {f : α → β} {b : β} (h : t.Spells (do let x ← p; return f x : Grammar β) b) :
    ∃ a, b = f a ∧ t.Spells p a := by
  obtain ⟨l, offset, ht, hs, h⟩ := h
  obtain ⟨a, mid, ha, hb⟩ := bind_eq_ok h
  cases hb
  exact ⟨a, rfl, l, offset, ht, hs, ha⟩

end Token.Spells

/-- A lexeme that starts like a name is a word. -/
theorem kindOf_of_isNameStart {l : Lexeme} {c : Char} {u : List Char} (hs : l.Stands [])
    (e : l.text = c :: u) (hc : Text.isNameStart c = true) : kindOf l = .word := by
  cases hw : l.isWord with
  | true =>
      cases l with
      | word w => rfl
      | _ => cases hw
  | false =>
      obtain ⟨d, v, e', hd⟩ := hs.exists_plain hw
      rw [List.append_nil, e] at e'
      cases e'
      rw [hc] at hd
      cases hd

/-- A token has the kind of the lexemes that a reader does not refuse. -/
theorem Token.Spells.kind {k : TokenKind} (h : t.Spells p a)
    (hr : ∀ l : Lexeme, l.Stands [] → kindOf l ≠ k → p.Refuses (l.text ++ [])) : t.kind = k := by
  obtain ⟨l, offset, rfl, hs, h⟩ := h
  by_contra other
  obtain ⟨f, rest, hf, -⟩ := hr l hs other
  rw [List.append_nil, h] at hf
  cases hf

/-- A word is spelled by itself. -/
theorem spells_word {w : String} {x : Unit} (hw : isName w = true) (h : t.Spells (Dsl.word w) x) :
    t.kind = .word ∧ t.text = w.toList := by
  obtain ⟨l, offset, rfl, hs, h⟩ := h
  obtain ⟨_, mid, he, hb⟩ := bind_eq_ok h
  have text := exact_eq_ok he
  obtain ⟨rfl, -⟩ := notBefore_eq_ok hb
  rw [List.append_nil] at text
  obtain ⟨c, u, e, hc⟩ := Dsl.exists_cons_of_isName hw
  exact ⟨kindOf_of_isNameStart hs (text.trans e) hc, text⟩

/-- A name is spelled by itself. -/
theorem spells_nameString {s : String} (h : t.Spells Dsl.nameString s) :
    t.kind = .word ∧ t.text = s.toList := by
  obtain ⟨l, offset, rfl, hs, h⟩ := h
  obtain ⟨text, name⟩ := Dsl.nameString_eq_ok h
  rw [List.append_nil] at text
  obtain ⟨c, u, e, hc⟩ := Dsl.exists_cons_of_isName name
  exact ⟨kindOf_of_isNameStart hs (text.trans e) hc, text⟩

/-- A keyword is spelled by a token of the connective. -/
theorem spells_keyword {op : Connective} {x : Unit} (h : t.Spells (Dsl.keyword op) x) :
    t.connective? = some op := by
  obtain ⟨l, offset, rfl, hs, h⟩ := h
  obtain ⟨w, text, same, -⟩ := Dsl.keyword_eq_ok h
  rw [List.append_nil] at text
  subst text
  obtain ⟨c, u, e, hc⟩ := Dsl.exists_cons_of_isName (Dsl.isName_of_sameLetters same)
  have word : (tokenOf l offset).kind = .word := kindOf_of_isNameStart hs e hc
  rw [Token.connective?, if_pos word]
  exact Dsl.ofKeyword?_eq_some_iff.mpr same

theorem spells_connective {op : Connective} (h : t.Spells Dsl.connective op) :
    t.connective? = some op := by
  have one {k : Connective} (h : t.Spells (do Dsl.keyword k; return k : Grammar Connective) op) :
      t.connective? = some op := by
    obtain ⟨_, rfl, h⟩ := h.map
    exact spells_keyword h
  obtain h | h := h.orElse
  · exact one h
  obtain h | h := h.orElse
  · exact one h
  obtain h | h := h.orElse
  · exact one h
  exact h.orElse.elim one one

/-- A reference to a field is spelled by the field's name in braces. -/
theorem spells_fieldReference {s : String} (h : t.Spells Dsl.fieldReference s) :
    t.kind = .fieldReference ∧ t.text = '$' :: '\x7b' :: (s.toList ++ ['\x7d']) := by
  refine ⟨h.kind fun l hs hk => Dsl.refuses_fieldReference (hs.ne ?_), ?_⟩
  · cases l with
    | reference _ => exact absurd rfl hk
    | char _ => exact Lexeme.starts_char (by decide)
    | _ => rfl
  · obtain ⟨l, offset, rfl, -, h⟩ := h
    obtain ⟨_, behind, he, hfield⟩ := bind_eq_ok h
    obtain ⟨field, close, hf, hclose⟩ := bind_eq_ok hfield
    obtain ⟨rfl, -⟩ := Dsl.nameString_eq_ok (commit_eq_ok (marked_eq_ok hf))
    obtain ⟨_, last, hc, hlast⟩ := bind_eq_ok hclose
    obtain rfl := char_eq_ok (commit_eq_ok (marked_eq_ok hc))
    cases hlast
    exact exact_eq_ok he

/-- No other lexeme is read as a string literal. -/
theorem refuses_stringLiteral_lexeme {l : Lexeme} (hs : l.Stands []) (hk : kindOf l ≠ .string) :
    Dsl.stringLiteral.Refuses (l.text ++ []) := by
  refine Dsl.refuses_stringLiteral (hs.ne ?_)
  cases l with
  | string _ => exact absurd rfl hk
  | char _ => exact Lexeme.starts_char (by decide)
  | _ => rfl

/-- A string literal is spelled by a string. -/
theorem spells_stringLiteral {s : String} (h : t.Spells Dsl.stringLiteral s) : t.kind = .string :=
  h.kind fun _ => refuses_stringLiteral_lexeme

theorem spells_payload {j : Payload} (h : t.Spells Dsl.payload j) : t.kind = .string := by
  refine h.marked.kind fun l hs hk => ?_
  obtain ⟨f, rest, hf, refused⟩ := refuses_stringLiteral_lexeme hs hk
  exact ⟨f, rest, by simp only [hf], refused⟩

theorem ne_number {l : Lexeme} (hk : kindOf l ≠ .number) : ∀ n w p, l ≠ .number n w p := by
  rintro n w p rfl
  exact hk rfl

/-- A number is spelled by a number. -/
theorem spells_number {v : Literal} (h : t.Spells Dsl.number v) : t.kind = .number :=
  h.kind fun _ hs hk => Dsl.refuses_number_lexeme (ne_number hk) hs

theorem spells_naturalBelow {bound n : Nat} (h : t.Spells (Dsl.naturalBelow bound) n) :
    t.kind = .number := by
  refine h.marked.kind fun l hs hk => ?_
  obtain ⟨f, rest, hf, refused⟩ := Dsl.refuses_digits_lexeme (ne_number hk) hs
  exact ⟨f, rest, by simp only [hf], refused⟩

theorem spells_equals {x : Unit} (h : t.Spells (Dsl.Grammar.char '=') x) : t.kind = .other := by
  obtain ⟨l, offset, rfl, hs, h⟩ := h
  have text : l.text = ['='] := char_eq_ok h
  have other {l : Lexeme} (hs : l.Stands []) (hl : l.starts '=' = false) : l.text ≠ ['='] :=
    fun e => hs.ne hl [] (by rw [e]; rfl)
  cases l with
  | char c =>
      cases text
      rfl
  | symbol s =>
      have none : ['='] ∉ Lint.symbols := by decide
      exact absurd (text ▸ hs.1) none
  | word _ => exact absurd text (other hs rfl)
  | number _ _ _ => exact absurd text (other hs rfl)
  | string _ => exact absurd text (other hs rfl)
  | reference _ => exact absurd text (other hs rfl)

/-! ### Fields, comparisons and values -/

/-- Whether the token may be a field. -/
def Token.isField (t : Token) : Bool := t.kind = .fieldReference || t.kind = .word

/-- Whether the token may be an argument. -/
def Token.isArgument (t : Token) : Bool := t.isField || t.kind = .string || t.kind = .number

theorem Token.isArgument_of_isField (h : t.isField = true) : t.isArgument = true := by
  rw [Token.isArgument, h]
  rfl

theorem Token.isArgument_of_kind {k : TokenKind} (h : t.kind = k) (hk : k ∈ [.string, .number]) :
    t.isArgument = true := by
  simp only [List.mem_cons, List.not_mem_nil, or_false] at hk
  obtain rfl | rfl := hk <;> simp [Token.isArgument, h]

theorem fieldName_of_nameString {s : String} (h : t.Spells Dsl.nameString s) :
    t.Spells Dsl.fieldName s := by
  obtain ⟨l, offset, ht, hs, h⟩ := h
  obtain ⟨text, name⟩ := Dsl.nameString_eq_ok h
  exact ⟨l, offset, ht, hs, text ▸ Dsl.fieldName_ok name Text.startsOutside_nil⟩

theorem fieldName_of_fieldReference {s : String} (h : t.Spells Dsl.fieldReference s) :
    t.Spells Dsl.fieldName s := by
  obtain ⟨l, offset, ht, hs, h⟩ := h
  exact ⟨l, offset, ht, hs, Dsl.Grammar.expecting_ok (Dsl.Grammar.orElse_of_ok h) _⟩

/-- A field is spelled by a word or a reference. -/
theorem spells_fieldName {s : String} (h : t.Spells Dsl.fieldName s) : t.isField = true := by
  obtain h | h := h.marked.orElse
  · simp [Token.isField, (spells_fieldReference h).1]
  · simp [Token.isField, (spells_nameString h).1]

/-- A comparison is spelled by a symbol or a word for one. -/
theorem spells_comparison {c : Comparison} (h : t.Spells Dsl.comparison c) :
    t.isComparison = true := by
  obtain ⟨l, offset, rfl, hs, h⟩ := h
  by_contra other
  have refuses : Dsl.comparison.Refuses (l.text ++ []) := by
    refine Dsl.refuses_comparison_lexeme ?_ ?_ hs
    · rintro s rfl
      exact other rfl
    · rintro w hw rfl
      simp only [List.mem_cons, List.not_mem_nil, or_false] at hw
      obtain rfl | rfl | rfl := hw <;> exact other rfl
  obtain ⟨f, rest, hf, -⟩ := refuses
  rw [List.append_nil, h] at hf
  cases hf

/-- The words that are literals. -/
def literalWords : List String := ["true", "false", "null"]

/-- A literal is spelled by a string, a number, or one of the words for literals. -/
theorem spells_literalValue {v : Literal} (h : t.Spells Dsl.literalValue v) :
    t.kind ∈ [.string, .number] ∨ t.kind = .word ∧ ∃ w ∈ literalWords, t.text = w.toList := by
  have spelled {w : String} {value : Literal} (hw : w ∈ literalWords)
      (h : t.Spells (do Dsl.word w; return value : Grammar Literal) v) :
      t.kind = .word ∧ ∃ w ∈ literalWords, t.text = w.toList := by
    have names : ∀ w ∈ literalWords, isName w = true := by decide
    obtain ⟨x, -, h⟩ := h.map
    exact ⟨(spells_word (names w hw) h).1, w, hw, (spells_word (names w hw) h).2⟩
  obtain h | h := h.marked.orElse
  · obtain ⟨s, -, h⟩ := h.map
    simp [spells_stringLiteral h]
  obtain h | h := h.orElse
  · exact .inr (spelled (by decide) h)
  obtain h | h := h.orElse
  · exact .inr (spelled (by decide) h)
  obtain h | h := h.orElse
  · exact .inr (spelled (by decide) h)
  simp [spells_number h]

/-- A literal is an argument, and no comparison. -/
theorem isArgument_of_literalValue {v : Literal} (h : t.Spells Dsl.literalValue v) :
    t.isArgument = true ∧ t.isComparison = false := by
  have others : ∀ w ∈ literalWords, Token.isComparison ⟨.word, w.toList, 0⟩ = false := by decide
  obtain few | ⟨kind, w, hw, text⟩ := spells_literalValue h
  · simp only [List.mem_cons, List.not_mem_nil, or_false] at few
    obtain kind | kind := few <;> simp [Token.isArgument, Token.isField, Token.isComparison, kind]
  · refine ⟨by simp [Token.isArgument, Token.isField, kind], ?_⟩
    rw [Token.isComparison, kind, text]
    exact others w hw

/-- An operand is no comparison. -/
theorem spells_operand {v : Literal × OperandKind} (h : t.Spells Dsl.operand v) :
    t.isArgument = true ∧ t.isComparison = false := by
  obtain h | h := h.marked.orElse
  · obtain ⟨s, -, h⟩ := h.map
    have kind := (spells_fieldReference h).1
    simp [Token.isArgument, Token.isField, Token.isComparison, kind]
  · obtain ⟨v, -, h⟩ := h.map
    exact isArgument_of_literalValue h

/-! ### Arguments -/

/-- Whether the argument is a field that has the name of a keyword. -/
def isKeywordField : Argument → Bool
  | ⟨.string field, .fieldReference⟩ => (Connective.ofKeyword? field.toList).isSome
  | _ => false

/-- Whether the atom is a call with such a field for its only argument. -/
def isKeywordCall : Atom → Bool
  | .call _ [a] => isKeywordField a
  | _ => false

/-- Whether the token is a reference to a field that has the name of a keyword. -/
def Token.refersToKeyword (t : Token) : Bool :=
  t.kind = .fieldReference && (Connective.ofKeyword? (t.text.drop 2).dropLast).isSome

/-- Whether the token is a field that has the name of a keyword, bare or as a reference. -/
def Token.namesKeyword (t : Token) : Bool := t.connective?.isSome || t.refersToKeyword

/-- Only words and references name keywords. -/
theorem namesKeyword_of_kind (hw : t.kind ≠ .word) (hr : t.kind ≠ .fieldReference) :
    t.namesKeyword = false := by
  simp [Token.namesKeyword, Token.connective?, Token.refersToKeyword, hw, hr]

/-- An argument of a function is spelled by a token that may be one, and that names a keyword
exactly if the argument is a field of such a name. -/
theorem spells_functionArgument {a : Argument} (h : t.Spells Dsl.functionArgument a) :
    t.isArgument = true ∧ t.namesKeyword = isKeywordField a := by
  obtain h | h := h.marked.orElse
  · obtain ⟨v, rfl, hv⟩ := h.map
    refine ⟨(isArgument_of_literalValue hv).1, ?_⟩
    have words : ∀ w ∈ literalWords, Token.namesKeyword ⟨.word, w.toList, 0⟩ = false := by decide
    have none : t.namesKeyword = false := by
      obtain few | ⟨kind, w, hw, text⟩ := spells_literalValue hv
      · simp only [List.mem_cons, List.not_mem_nil, or_false] at few
        obtain kind | kind := few <;> exact namesKeyword_of_kind (by simp [kind]) (by simp [kind])
      · rw [Token.namesKeyword, Token.connective?, Token.refersToKeyword, kind, text]
        exact words w hw
    rw [none]
    cases v <;> rfl
  · obtain ⟨field, rfl, hf⟩ := h.map
    refine ⟨Token.isArgument_of_isField (spells_fieldName hf), ?_⟩
    obtain hf | hf := hf.marked.orElse
    · obtain ⟨kind, text⟩ := spells_fieldReference hf
      simp [Token.namesKeyword, Token.connective?, Token.refersToKeyword, isKeywordField, kind, text]
    · obtain ⟨kind, text⟩ := spells_nameString hf
      simp [Token.namesKeyword, Token.connective?, Token.refersToKeyword, isKeywordField, kind, text]

/-- Values with commas between them, or with an equals sign behind the name of a parameter. -/
inductive Listed : List Token → Prop where
  | single {v : Token} (hv : v.isArgument = true) : Listed [v]
  | cons {v c : Token} {vs : List Token} (hv : v.isArgument = true) (hc : c.kind ∈ [.comma, .other])
      (h : Listed vs) : Listed (v :: c :: vs)

/-- Two lists with a separator between them are a list. -/
theorem Listed.append {us vs : List Token} {c : Token} (hu : Listed us)
    (hc : c.kind ∈ [.comma, .other]) (hv : Listed vs) : Listed (us ++ c :: vs) := by
  induction hu with
  | single h => exact .cons h hc hv
  | cons h hc' _ ih => exact .cons h hc' ih

/-- The tokens between the parentheses of a call without rules in it. -/
inductive Arguments : Atom → List Token → Prop where
  | none {a : Atom} (ha : isKeywordCall a = false) : Arguments a []
  | one {a : Atom} {v : Token} (hv : v.isArgument = true) (ha : v.namesKeyword = isKeywordCall a) :
      Arguments a [v]
  | more {a : Atom} {v c : Token} {vs : List Token} (hv : v.isArgument = true) (hc : c.kind = .comma)
      (h : Listed vs) (ha : isKeywordCall a = false) : Arguments a (v :: c :: vs)

/-! ### Rules -/

/-- A rule behind a separator, with its tokens. -/
structure Link where
  separator : Token
  rule : Rule
  tokens : List Token

/-- The separator and the tokens behind it. -/
def Link.all (l : Link) : List Token := l.separator :: l.tokens

/-- A keyword at the start, `NOT` apart, is the field of a comparison by a symbol. -/
def Unheaded (ts : List Token) : Prop :=
  ∀ t u rest, ts = t :: u :: rest → ∀ op, t.connective? = some op → op ≠ .not → u.kind = .comparison

/-- The tokens that a rule is read from. -/
inductive Spelled : Rule → List Token → Prop where
  | condition {c : Condition} {t u v : Token} (ht : t.Spells Dsl.fieldName c.field)
      (hu : u.Spells Dsl.comparison c.comparison) (hv : v.Spells Dsl.operand (c.value, c.kind)) :
      Spelled (.atom (.condition c) none) [t, u, v]
  | call {a : Atom} {t o e : Token} {args : List Token} (ht : t.kind = .word) (ho : o.kind = .opening)
      (ha : Arguments a args) (he : e.kind = .closing) (hc : Lint.condition? (.atom a none) = none) :
      Spelled (.atom a none) (t :: o :: (args ++ [e]))
  /-- A field, a value in front of the rule if there is one, and the rule. -/
  | scope {s : Scope} {r : Rule} {t o f c e : Token} {front ts : List Token} (ht : t.kind = .word)
      (ho : o.kind = .opening) (hf : f.isArgument = true) (hc : c.kind = .comma)
      (hv : front = [] ∨ ∃ v c', front = [v, c'] ∧ v.isArgument = true ∧ c'.kind = .comma)
      (hr : Spelled r ts) (he : e.kind = .closing) :
      Spelled (.scope s r none) (t :: o :: f :: c :: (front ++ (ts ++ [e])))
  | quota {kind : Quota} {count : UInt32} {r : Rule} {t o n c b b' e : Token} {ts : List Token}
      {links : List Link} (ht : t.kind = .word) (ho : o.kind = .opening) (hn : n.kind = .number)
      (hc : c.kind = .comma) (hb : b.kind = .other) (hr : Spelled r ts)
      (hs : ∀ l ∈ links, l.separator.kind = .comma) (hl : ∀ l ∈ links, Spelled l.rule l.tokens)
      (hb' : b'.kind = .other) (he : e.kind = .closing) :
      Spelled (.junction (.quota kind count) (r :: links.map Link.rule) none)
        (t :: o :: n :: c :: b :: (ts ++ (links.flatMap Link.all ++ [b', e])))
  | emptyQuota {kind : Quota} {count : UInt32} {t o n c b b' e : Token} (ht : t.kind = .word)
      (ho : o.kind = .opening) (hn : n.kind = .number) (hc : c.kind = .comma) (hb : b.kind = .other)
      (hb' : b'.kind = .other) (he : e.kind = .closing) :
      Spelled (.junction (.quota kind count) [] none) [t, o, n, c, b, b', e]
  | negation {r : Rule} {t : Token} {ts : List Token} (ht : t.connective? = some .not)
      (hr : Spelled r ts) : Spelled (.group .not [r]) (t :: ts)
  | chain {op : Connective} {r : Rule} {ts : List Token} {links : List Link} (hop : op ≠ .not)
      (hr : Spelled r ts) (hn : links ≠ [])
      (hs : ∀ l ∈ links, l.separator.connective? = some op)
      (hl : ∀ l ∈ links, Spelled l.rule l.tokens) :
      Spelled (.group op (r :: links.map Link.rule)) (ts ++ links.flatMap Link.all)
  | enclosed {r : Rule} {o e : Token} {ts : List Token} (ho : o.kind = .opening) (hr : Spelled r ts)
      (hu : Unheaded ts) (he : e.kind = .closing) : Spelled r (o :: (ts ++ [e]))
  | group {op : Connective} {r : Rule} {o t e : Token} {ts : List Token} {links : List Link}
      (ho : o.kind = .opening) (ht : t.connective? = some op) (hr : Spelled r ts)
      (hs : ∀ l ∈ links, l.separator.kind = .comma) (hl : ∀ l ∈ links, Spelled l.rule l.tokens)
      (he : e.kind = .closing) :
      Spelled (.group op (r :: links.map Link.rule)) (o :: t :: (ts ++ (links.flatMap Link.all ++ [e])))
  | emptyGroup {op : Connective} {o t e : Token} (ho : o.kind = .opening)
      (ht : t.connective? = some op) (he : e.kind = .closing) : Spelled (.group op []) [o, t, e]

/-- A keyword is a word. -/
theorem kind_of_connective? {op : Connective} (h : t.connective? = some op) : t.kind = .word := by
  rw [Token.connective?] at h
  split at h
  · assumption
  · cases h

theorem isField_of_kind (h : t.kind = .word) : t.isField = true := by simp [Token.isField, h]

/-- The first tokens of a rule. -/
inductive Starts : List Token → Prop where
  | opening {o : Token} {ts : List Token} (h : o.kind = .opening) : Starts (o :: ts)
  | negation {t : Token} {ts : List Token} (h : t.connective? = some .not) (hts : ts ≠ []) :
      Starts (t :: ts)
  | name {t u : Token} {ts : List Token} (ht : t.isField = true)
      (hu : u.kind = .opening ∨ u.isComparison = true) : Starts (t :: u :: ts)

theorem Starts.append {ts : List Token} (h : Starts ts) (us : List Token) : Starts (ts ++ us) := by
  cases h with
  | opening h => exact .opening h
  | negation h hts => exact .negation h (List.append_ne_nil_of_left_ne_nil hts us)
  | name ht hu => exact .name ht hu

theorem Starts.ne_nil {ts : List Token} (h : Starts ts) : ts ≠ [] := by
  cases h <;> exact List.cons_ne_nil _ _

/-- The tokens of a rule start as a rule does. -/
theorem Spelled.starts {r : Rule} {ts : List Token} (h : Spelled r ts) : Starts ts := by
  induction h with
  | condition ht hu _ => exact .name (spells_fieldName ht) (.inr (spells_comparison hu))
  | call ht ho _ _ _ => exact .name (isField_of_kind ht) (.inl ho)
  | scope ht ho _ _ _ _ _ _ => exact .name (isField_of_kind ht) (.inl ho)
  | quota ht ho _ _ _ _ _ _ _ _ _ _ => exact .name (isField_of_kind ht) (.inl ho)
  | emptyQuota ht ho _ _ _ _ _ => exact .name (isField_of_kind ht) (.inl ho)
  | negation ht _ ih => exact .negation ht ih.ne_nil
  | chain _ _ _ _ _ ih _ => exact ih.append _
  | enclosed ho _ _ _ _ => exact .opening ho
  | group ho _ _ _ _ _ _ _ => exact .opening ho
  | emptyGroup ho _ _ => exact .opening ho

/-- Tokens that start with `NOT` are unheaded. -/
theorem unheaded_of_not (h : t.connective? = some .not) (ts : List Token) : Unheaded (t :: ts) := by
  rintro _ u rest ⟨⟩ op ht hop
  exact absurd (Option.some.inj (ht.symm.trans h)) hop

end Rulebook.Lint
