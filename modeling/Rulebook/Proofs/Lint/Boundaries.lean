import Rulebook.Proofs.Dsl.Lexical
import Rulebook.Proofs.Lint.Tokens

/-!
# Rulebook — Proofs — Lint — Boundaries

A token is the start of the text, whatever that is (`tiles_of_nextToken`).  The tokens of the linter
are the lexemes of the grammar: in a text that closes its parentheses every token that is no comment
is a lexeme that stands before the rest (`Closes.lexeme`).  A lexeme that stands before one text
stands before another one too, if that starts in the same way or with a character that ends every
lexeme (`Dsl.Lexeme.Stands.resume`).
-/

namespace Rulebook.Lint

open Dsl (Lexeme)
open Text (StartsOutside startsOutside_cons)

variable {n : Nat} {c : Char} {cs rest text : List Char} {kind : TokenKind}

/-! ### Tokens are lexemes -/

/-- The kind of a lexeme's token. -/
def kindOf : Lexeme → TokenKind
  | .word _ => .word
  | .number _ _ _ => .number
  | .string _ => .string
  | .reference _ => .fieldReference
  | .symbol _ => .comparison
  | .char c => charKind c

/-! ### What a token takes -/

/-- A token takes at least its first character. -/
theorem exists_cons_of_nextToken (h : nextToken c cs = (kind, text, rest)) :
    ∃ t, text = c :: t := by
  have run {body : List Char} (hb : InertRun (c :: cs) body rest) : ∃ t, body = c :: t := by
    obtain ⟨d, t, rfl⟩ := List.exists_cons_of_ne_nil hb.nonempty
    obtain ⟨rfl, -⟩ := List.cons.inj hb.tiles
    exact ⟨t, rfl⟩
  cases tokenAt_of_nextToken h with
  | comment _ _ => exact ⟨_, rfl⟩
  | reference _ => exact ⟨_, rfl⟩
  | string _ => exact ⟨_, rfl⟩
  | number hn => exact run (inertRun_numberToken hn)
  | word _ => exact ⟨_, rfl⟩
  | comparison hs => exact run (inertRun_symbol hs)
  | char _ _ _ => exact ⟨_, rfl⟩

/-- The body of a string literal and what is behind it are the text. -/
theorem stringBody_tiles (cs : List Char) : (stringBody cs).1 ++ (stringBody cs).2 = cs := by
  fun_induction stringBody cs with
  | case1 => rfl
  | case2 cs => rfl
  | case3 => rfl
  | case4 d cs body rest e ih =>
      rw [e] at ih
      exact congrArg ('\\' :: d :: ·) ih
  | case5 d cs quote last escape body rest e ih =>
      rw [e] at ih
      exact congrArg (d :: ·) ih

/-- The body of a reference and what is behind it are the text. -/
theorem referenceBody_tiles (cs : List Char) :
    (referenceBody cs).1 ++ (referenceBody cs).2 = cs := by
  fun_induction referenceBody cs with
  | case1 => rfl
  | case2 cs => rfl
  | case3 d cs other body rest e ih =>
      rw [e] at ih
      exact congrArg (d :: ·) ih

/-- A dollar starts a reference only in front of a brace. -/
theorem exists_brace (h : nextToken '$' cs = (.fieldReference, text, rest)) :
    ∃ t, cs = '\x7b' :: t := by
  by_cases brace : cs.head? = some '\x7b'
  · cases cs with
    | nil => cases brace
    | cons d t =>
        cases brace
        exact ⟨t, rfl⟩
  · have other : nextToken '$' cs = (.other, ['$'], cs) := by
      rw [nextToken, if_neg (by simp), if_neg (by simpa using brace)]
      rfl
    rw [other] at h
    cases h

/-- **A token is the start of the text**, whatever stands there, and the rest is behind it. -/
theorem tiles_of_nextToken (h : nextToken c cs = (kind, text, rest)) : text ++ rest = c :: cs := by
  cases tokenAt_of_nextToken h with
  | comment _ _ => exact congrArg (c :: ·) (splitLine_append cs)
  | reference dollar =>
      subst dollar
      obtain ⟨t, rfl⟩ := exists_brace h
      exact congrArg ('$' :: '\x7b' :: ·) (referenceBody_tiles t)
  | string _ => exact congrArg (c :: ·) (stringBody_tiles cs)
  | number hn => exact (inertRun_numberToken hn).tiles
  | word _ => exact congrArg (c :: ·) List.takeWhile_append_dropWhile
  | comparison hs => exact (inertRun_symbol hs).tiles
  | char _ _ _ => rfl

/-- A token takes at least one character. -/
theorem length_le_of_nextToken (h : nextToken c cs = (kind, text, rest)) :
    rest.length ≤ cs.length := by
  obtain ⟨t, rfl⟩ := exists_cons_of_nextToken h
  have length := congrArg List.length (tiles_of_nextToken h)
  rw [List.length_append, List.length_cons, List.length_cons] at length
  omega

/-! ### How a token starts -/

/-- Where comments, words and comparisons start. -/
def TokenKind.startsAt : TokenKind → Char → List Char → Bool
  | .comment, c, cs => c = '#' && Dsl.lineCloses cs
  | .word, c, _ => Text.isNameStart c
  | .comparison, c, _ => ['>', '<', '=', '!'].contains c
  | _, _, _ => true

/-- A token starts as its kind says. -/
theorem startsAt_of_nextToken (h : nextToken c cs = (kind, text, rest)) :
    kind.startsAt c cs = true := by
  cases tokenAt_of_nextToken h with
  | comment mark line => exact Bool.and_eq_true_iff.mpr ⟨decide_eq_true mark, line⟩
  | word name => exact name
  | comparison hs =>
      have stands : text <+: c :: cs := by simpa using List.find?_some hs
      have starts : ∀ s ∈ symbols, ∃ d u, s = d :: u ∧ ['>', '<', '=', '!'].contains d := by
        simp [symbols]
      obtain ⟨d, u, rfl, hd⟩ := starts text (List.mem_of_find?_eq_some hs)
      exact (List.cons_prefix_cons.mp stands).1 ▸ hd
  | reference _ => rfl
  | string _ => rfl
  | number _ => rfl
  | char _ _ _ =>
      rw [charKind]
      split
      · rfl
      split
      · rfl
      split
      · rfl
      · rfl

/-- The text is a number that stands before the rest. -/
def IsNumber (negative : Bool) (body rest : List Char) : Prop :=
  ∃ whole places, body = whole ++ Lexeme.placesText places ∧
    (Lexeme.number negative whole places).Stands rest

/-- What the linter takes as a number is one. -/
theorem isNumber_numberBody {body : List Char} (h : numberBody cs = some (body, rest))
    (negative : Bool) : IsNumber negative body rest := by
  have digits (cs : List Char) : ∀ d ∈ cs.takeWhile Char.isDigit, d.isDigit = true :=
    fun d hd => List.all_eq_true.mp List.all_takeWhile d hd
  have outside := Text.startsOutside_dropWhile Char.isDigit cs
  rw [numberBody] at h
  split at h
  · cases h
  · rename_i whole _ behind point hne
    rw [point] at outside
    split at h
    · -- a point without digits behind it is left
      rename_i none
      cases h
      refine ⟨_, [], (List.append_nil _).symm, hne, digits cs, List.forall_mem_nil _, outside,
        fun _ t e => ?_⟩
      cases e
      exact Text.startsOutside_of_takeWhile none
    · rename_i hp
      cases h
      obtain ⟨d, ds, e⟩ := List.exists_cons_of_ne_nil hp
      refine ⟨cs.takeWhile Char.isDigit, d :: ds, by rw [e]; rfl, hne, digits cs, e ▸ digits behind,
        Text.startsOutside_dropWhile Char.isDigit behind, fun e => absurd e (List.cons_ne_nil _ _)⟩
  · rename_i hne hp
    cases h
    refine ⟨_, [], (List.append_nil _).symm, hne, digits cs, List.forall_mem_nil _, outside,
      fun _ t e => ?_⟩
    exact absurd e (hp t)

/-- A token that is a number is a lexeme that stands before what is behind it. -/
theorem exists_lexeme_of_numberToken {body : List Char} (h : numberToken cs = some (body, rest)) :
    ∃ l : Lexeme, l.text = body ∧ kindOf l = .number ∧ l.Stands rest ∧ l.opened = 0 ∧
      l.closed = 0 := by
  have lexeme (negative : Bool) {body : List Char} (hb : IsNumber negative body rest) :
      ∃ l : Lexeme, l.text = (if negative then ['-'] else []) ++ body ∧ kindOf l = .number ∧
        l.Stands rest ∧ l.opened = 0 ∧ l.closed = 0 := by
    obtain ⟨whole, places, rfl, hs⟩ := hb
    exact ⟨.number negative whole places, rfl, rfl, hs, rfl, rfl⟩
  rw [numberToken.eq_def] at h
  split at h
  · obtain ⟨⟨digits, after⟩, hb, e⟩ := Option.map_eq_some_iff.mp h
    cases e
    exact lexeme true (isNumber_numberBody hb true)
  · exact lexeme false (isNumber_numberBody h false)

/-- A comparison symbol is a lexeme that stands before what is behind it. -/
theorem stands_symbol {s : List Char} (h : (symbols.find? fun s => s.isPrefixOf cs) = some s) :
    (Lexeme.symbol s).Stands (cs.drop s.length) := by
  have stands : s.isPrefixOf cs = true := by simpa using List.find?_some h
  have mem := List.mem_of_find?_eq_some h
  obtain ⟨after, rfl⟩ := List.isPrefixOf_iff_prefix.mp stands
  rw [List.drop_left]
  refine ⟨mem, fun one t e => ?_⟩
  subst e
  -- the longer symbol is found first
  have sole : ∀ s ∈ symbols, s.length = 1 → s = ['>'] ∨ s = ['<'] := by decide
  obtain rfl | rfl := sole s mem one
  · exact absurd h (by simp [symbols])
  · exact absurd h (by simp [symbols])

theorem startsOutside_of_numberBody (h : numberBody cs = none) : StartsOutside Char.isDigit cs := by
  refine Text.startsOutside_of_takeWhile ?_
  rw [numberBody] at h
  split at h
  · assumption
  · split at h <;> cases h
  · cases h

/-- A character that starts no number is no digit. -/
theorem isDigit_of_numberToken (h : numberToken (c :: cs) = none) : c.isDigit = false := by
  rw [numberToken.eq_def] at h
  split at h
  · rename_i e
    cases e
    decide
  · exact startsOutside_of_numberBody h c rfl

/-- A character that starts no longer token is a lexeme of its own. -/
theorem stands_char (hs : Dsl.isSolid c = true) (hi : isInert c = true)
    (hn : numberToken (c :: cs) = none) (hw : Text.isNameStart c = false)
    (hf : (symbols.find? fun s => s.isPrefixOf (c :: cs)) = none) :
    (Lexeme.char c).Stands cs := by
  have none : ∀ s ∈ symbols, ¬ s <+: c :: cs := by simpa using hf
  refine ⟨?_, ?_, ?_⟩
  · have few : ¬ ['"', '$', '>', '<'].contains c = true := by
      intro hc
      have listed : ((c = '"' ∨ c = '$') ∨ c = '>') ∨ c = '<' := by simpa [or_assoc] using hc
      rcases listed with ((rfl | rfl) | rfl) | rfl
      · cases hi
      · cases hi
      · exact absurd (none ['>'] (by decide)) (by simp)
      · exact absurd (none ['<'] (by decide)) (by simp)
    rw [Dsl.isLone, hs, hw, isDigit_of_numberToken hn, Bool.eq_false_iff.mpr few]
    rfl
  · rintro rfl
    exact startsOutside_of_numberBody (Option.map_eq_none_iff.mp hn)
  · rintro (rfl | rfl) t rfl
    · exact absurd (none ['=', '='] (by decide)) (by simp)
    · exact absurd (none ['!', '='] (by decide)) (by simp)

/-- An inert character opens and closes nothing. -/
theorem flat_of_isInert (h : isInert c = true) :
    (Lexeme.char c).opened = 0 ∧ (Lexeme.char c).closed = 0 := by
  have ho : c ≠ '(' := by
    rintro rfl
    cases h
  have hc : c ≠ ')' := by
    rintro rfl
    cases h
  simp [Lexeme.opened, Lexeme.closed, ho, hc]

/-- A token that starts with an inert character is a lexeme. -/
theorem exists_lexeme_of_isInert (hs : Dsl.isSolid c = true) (hi : isInert c = true)
    (h : nextToken c cs = (kind, text, rest)) :
    ∃ l : Lexeme, l.text = text ∧ kindOf l = kind ∧ l.Stands rest ∧ l.opened = 0 ∧
      l.closed = 0 := by
  have other {d : Char} (hd : isInert d = false) : c ≠ d := by
    rintro rfl
    rw [hi] at hd
    cases hd
  cases tokenAt_of_nextToken h with
  | comment mark _ => exact absurd mark (other rfl)
  | reference dollar => exact absurd dollar (other rfl)
  | string quote => exact absurd quote (other rfl)
  | number hn => exact exists_lexeme_of_numberToken hn
  | word hw =>
      refine ⟨.word _, rfl, rfl, ⟨?_, Text.startsOutside_dropWhile _ _⟩, rfl, rfl⟩
      exact Bool.and_eq_true_iff.mpr ⟨hw, List.all_takeWhile⟩
  | comparison hf => exact ⟨.symbol _, rfl, rfl, stands_symbol hf, rfl, rfl⟩
  | char hn hw hf => exact ⟨.char c, rfl, rfl, stands_char hs hi hn hw hf, flat_of_isInert hi⟩

/-- **A token of a text that closes its parentheses is a lexeme** that stands before the rest,
unless it is a comment. -/
theorem Closes.lexeme (h : Closes n (c :: cs)) (hb : Text.isAsciiBlank c = false)
    (ht : Lint.nextToken c cs = (kind, text, rest)) (hk : kind ≠ .comment) :
    ∃ (l : Lexeme) (m : Nat), l.text = text ∧ kindOf l = kind ∧ text ++ rest = c :: cs ∧
      l.Stands rest ∧ n + l.opened = m + l.closed ∧ Closes m rest := by
  -- a parenthesis is neither a sign nor half of a symbol
  have stands {d : Char} (hd : Dsl.isLone d = true ∧ d ≠ '-' ∧ ¬(d = '=' ∨ d = '!')) (rest) :
      (Lexeme.char d).Stands rest :=
    ⟨hd.1, fun e => absurd e hd.2.1, fun e => absurd e hd.2.2⟩
  cases h with
  | inert hc t =>
      have solid : Dsl.isSolid c = true := by
        have : c ≠ '#' := by
          rintro rfl
          cases hc
        simp [Dsl.isSolid, hb, this]
      obtain ⟨l, hl, hkind, hs, ho, hcl⟩ := exists_lexeme_of_isInert solid hc ht
      obtain ⟨_, run, after, e, piece, -, -⟩ := nextToken_of_isInert hc cs
      rw [ht] at e
      cases e
      refine ⟨l, n, hl, hkind, piece.tiles, hs, by rw [ho, hcl], ?_⟩
      exact (piece.tiles ▸ Closes.inert hc t).of_append piece.inert
  | string hs t =>
      obtain ⟨body, e, rfl, hb⟩ := stringBody_of_stringRest hs
      simp only [Lint.nextToken, e] at ht
      cases ht
      exact ⟨.string body, n, rfl, rfl, rfl, ⟨_, hb⟩, rfl, t⟩
  | comment hl t =>
      simp only [Lint.nextToken, hl, Bool.and_true, decide_true, if_true] at ht
      exact absurd (congrArg Prod.fst ht).symm hk
  | @reference _ field rest hf t =>
      have token : Lint.nextToken '$' ('\x7b' :: (field ++ '\x7d' :: rest)) =
          (.fieldReference, '$' :: '\x7b' :: (field ++ ['\x7d']), rest) := by
        simp [Lint.nextToken, referenceBody_append hf]
      rw [token] at ht
      cases ht
      exact ⟨.reference field, n, rfl, rfl, by simp, hf, rfl, t⟩
  | opening t =>
      cases ht
      exact ⟨.char '(', n + 1, rfl, rfl, rfl, stands (by decide) _, rfl, t⟩
  | closing t =>
      cases ht
      exact ⟨.char ')', _, rfl, rfl, rfl, stands (by decide) _, rfl, t⟩

/-! ### Where a lexeme ends -/

/-- The blanks, the start of a comment and the closing parenthesis end every lexeme. -/
def breakChars : List Char := [' ', '\t', '\n', '\x0c', '\r', '#', ')']

/-- The text starts with a character that ends every lexeme, if with any. -/
def Breaks (cs : List Char) : Prop := ∀ c ∈ cs.head?, c ∈ breakChars

/-- The second text starts like the first, or ends every lexeme in front of it. -/
def Beside (cs ds : List Char) : Prop := ds.head? = cs.head? ∨ Breaks ds

/-- The second text starts like the first so far as a lexeme in front of them can tell. -/
structure Resumes (cs ds : List Char) : Prop where
  beside : Beside cs ds
  point : ∀ v, ds = '.' :: v → ∃ u, cs = '.' :: u ∧ Beside u v

variable {ds : List Char}

/-- What ends before the first text ends before the second one, if every break ends it. -/
theorem Beside.startsOutside {inside : Char → Bool} (h : Beside cs ds)
    (hb : breakChars.all (fun d => !inside d) = true) (hc : StartsOutside inside cs) :
    StartsOutside inside ds := by
  intro c hd
  obtain e | breaks := h
  · exact hc c (e ▸ hd)
  · simpa using List.all_eq_true.mp hb c (breaks c hd)

theorem Beside.ne (h : Beside cs ds) (hb : c ∉ breakChars) (hc : ∀ t, cs ≠ c :: t) :
    ∀ t, ds ≠ c :: t := by
  rintro t rfl
  obtain e | breaks := h
  · cases cs with
    | nil => cases e
    | cons d u =>
        cases e
        exact hc u rfl
  · exact hb (breaks c rfl)

/-- **A lexeme stands before a text** if it stands before one that starts in the same way, or if the
text starts with a character that ends every lexeme. -/
theorem Stands.resume {l : Lexeme} (h : l.Stands cs) (r : Resumes cs ds) : l.Stands ds := by
  cases l with
  | word w => exact ⟨h.1, r.beside.startsOutside (by decide) h.2⟩
  | number negative whole places =>
      obtain ⟨hne, hw, hp, hr, point⟩ := h
      refine ⟨hne, hw, hp, r.beside.startsOutside (by decide) hr, fun e v hv => ?_⟩
      obtain ⟨u, hu, beside⟩ := r.point v hv
      exact beside.startsOutside (by decide) (point e u hu)
  | string body => exact h
  | reference field => exact h
  | symbol s => exact ⟨h.1, fun one => r.beside.ne (by decide) (h.2 one)⟩
  | char c =>
      exact ⟨h.1, fun e => r.beside.startsOutside (by decide) (h.2.1 e),
        fun e => r.beside.ne (by decide) (h.2.2 e)⟩

/-- Every lexeme that stands before the first text stands before the second one. -/
def Admits (cs ds : List Char) : Prop := ∀ l : Lexeme, l.Stands cs → l.Stands ds

/-- Behind a number, the second text starts with no digit if the first one does not. -/
theorem Admits.startsOutside (h : Admits cs ds) (hc : StartsOutside Char.isDigit cs) :
    StartsOutside Char.isDigit ds := by
  have digit : ∀ d ∈ ['0'], d.isDigit = true := List.forall_mem_singleton.mpr (by decide)
  have stands := h (.number false ['0'] ['0']) ⟨List.cons_ne_nil _ _, digit, digit, hc, nofun⟩
  exact stands.2.2.2.1

/-- A lexeme sees no further than the first character behind it, a number to the one behind a
point. -/
theorem Admits.cons (h : Admits cs ds) (c : Char) : Admits (c :: cs) (c :: ds) := by
  have first {inside : Char → Bool} (hc : StartsOutside inside (c :: cs)) :
      StartsOutside inside (c :: ds) := startsOutside_cons (hc c rfl)
  have equals (hc : ∀ t, c :: cs ≠ '=' :: t) (t : List Char) : c :: ds ≠ '=' :: t := by
    rintro e
    obtain ⟨rfl, -⟩ := List.cons.inj e
    exact hc cs rfl
  intro l hl
  cases l with
  | word w => exact ⟨hl.1, first hl.2⟩
  | number negative whole places =>
      obtain ⟨hne, hw, hp, hr, point⟩ := hl
      refine ⟨hne, hw, hp, first hr, fun e t ht => ?_⟩
      obtain ⟨rfl, rfl⟩ := List.cons.inj ht
      exact h.startsOutside (point e cs rfl)
  | string body => exact hl
  | reference field => exact hl
  | symbol s => exact ⟨hl.1, fun one => equals (hl.2 one)⟩
  | char d => exact ⟨hl.1, fun e => first (hl.2.1 e), fun e => equals (hl.2.2 e)⟩

/-- What stands before a word stands before every text that starts like an operand. -/
theorem admits_of_isNameStart (hc : Text.isNameStart c = true)
    (hd : ∀ d ∈ ds.head?, Text.isNameStart d = true ∨ d = '(' ∨ d = '$') : Admits (c :: cs) ds := by
  have outside : StartsOutside Char.isDigit ds := by
    intro d h
    obtain name | rfl | rfl := hd d h
    · exact Dsl.isDigit_of_isNameStart name
    · decide
    · decide
  have ne {d : Char} (hn : (Text.isNameStart d || d = '(' || d = '$') = false) (t : List Char) :
      ds ≠ d :: t := by
    rintro rfl
    obtain name | rfl | rfl := hd d rfl
    · rw [name] at hn
      cases hn
    · cases hn
    · cases hn
  intro l hl
  cases l with
  | word w =>
      have inside := hl.2 c rfl
      rw [Text.isNamePart_of_isNameStart hc] at inside
      cases inside
  | number negative whole places =>
      obtain ⟨hne, hw, hp, -, -⟩ := hl
      exact ⟨hne, hw, hp, outside, fun _ t e => absurd e (ne (by decide) t)⟩
  | string body => exact hl
  | reference field => exact hl
  | symbol s => exact ⟨hl.1, fun _ => ne (by decide)⟩
  | char d => exact ⟨hl.1, fun _ => outside, fun _ => ne (by decide)⟩

end Rulebook.Lint
