import Rulebook.Proofs.Dsl.Keeps
import Rulebook.Proofs.Dsl.Tame

/-!
# Rulebook — Proofs — Dsl — Cut

Where a reader of the rule language may stand.  Every reader cuts pieces from the start of what is
left of a text: blanks and comments, names, runs of digits, string literals, field references,
symbols, and parentheses, which it counts.  The places that it gets to are *cuts* of the text
(`Cut`), so that a fact about all cuts, proved piece by piece, is one about every reader.

* `Tame.of_cut`: what is left of a tame text is tame.
* `keeps_keyword`, `keeps_nameString`, `keeps_fieldReference` and others: the words of the language
  lead from cut to cut, and `takes_opening` and `takes_closing` to one more or one less open
  parenthesis.
* `keeps_number`, `keeps_literalValue`: what keeps a value from being written is that it is not
  finite, and values that are read from a tame text are (`Clears`).
-/

namespace Rulebook.Dsl

open Grammar
open Text (startsOutside_cons)

/-- The characters of comparisons, lists, parameters and numbers that are read by themselves. -/
def symbolChars : List Char := [',', '[', ']', '=', '<', '>', '!', '-', '.']

/-- A character that is read by itself and is no parenthesis. -/
def isSymbol (c : Char) : Bool := symbolChars.contains c

/-- What is left of a text when pieces are cut from its start, with some parentheses still open. -/
inductive Cut (text : List Char) : Nat → List Char → Prop where
  | whole : Cut text 0 text
  | trivia {n : Nat} {cs : List Char} (h : Cut text n cs) : Cut text n (skipTrivia cs)
  | name {n : Nat} {c : Char} {cs : List Char} (h : Cut text n (c :: cs))
      (hc : Text.isNameStart c = true) : Cut text n (cs.dropWhile Text.isNamePart)
  | digits {n : Nat} {c : Char} {cs : List Char} (h : Cut text n (c :: cs))
      (hc : c.isDigit = true) : Cut text n (cs.dropWhile Char.isDigit)
  | string {n : Nat} {cs s rest : List Char} (h : Cut text n ('"' :: cs))
      (hs : stringRest cs = .ok s rest) : Cut text n rest
  | reference {n : Nat} {field rest : List Char}
      (h : Cut text n ('$' :: '\x7b' :: (field ++ '\x7d' :: rest)))
      (hf : Text.isName field = true) : Cut text n rest
  | symbol {n : Nat} {c : Char} {cs : List Char} (h : Cut text n (c :: cs))
      (hc : isSymbol c = true) : Cut text n cs
  | opening {n : Nat} {cs : List Char} (h : Cut text n ('(' :: cs)) : Cut text (n + 1) cs
  | closing {n : Nat} {cs : List Char} (h : Cut text (n + 1) (')' :: cs)) : Cut text n cs

/-- A check of what was read from the text fails for a number that is not finite at most, and only
if the text is not tame. -/
def Clears (text : List Char) (check : Except RenderError Unit) : Prop :=
  ∀ e, check = .error e → ¬ Tame text ∧ ∃ x, x.isFinite = false ∧ e = .notFinite x

namespace Clears

variable {α : Type} {text : List Char} {x y : Except RenderError Unit}

theorem of_eq_ok (h : x = .ok ()) : Clears text x := fun _ he => by rw [h] at he; cases he

theorem ok : Clears text (.ok ()) := of_eq_ok rfl

/-- In a tame text a check that fails for no other reason passes. -/
theorem eq_ok (h : Clears text x) (ht : Tame text) : x = .ok () := by
  cases x with
  | error e => exact absurd ht (h e rfl).1
  | ok u => rfl

/-- Checks one behind the other fail for no other reason than each does. -/
theorem andThen (hx : Clears text x) (hy : Clears text y) : Clears text (do x; y) := by
  cases x with
  | error e => exact hx
  | ok u => exact hy

/-- The checks of a list fail for no other reason than each does. -/
theorem forM {f : α → Except RenderError Unit} {l : List α} (h : ∀ a ∈ l, Clears text (f a)) :
    Clears text (l.forM f) := by
  induction l with
  | nil => exact .ok
  | cons a l ih =>
      obtain ⟨ha, hl⟩ := List.forall_mem_cons.mp h
      exact ha.andThen (ih hl)

end Clears

section

variable {α : Type} {text cs rest : List Char} {c : Char} {n : Nat}

theorem isPlain_of_isSymbol (h : isSymbol c = true) : isPlain c = true := by
  have plain : symbolChars.all isPlain = true := by decide
  exact List.all_eq_true.mp plain c (List.contains_iff_mem.mp h)

/-- What is left of a tame text is tame. -/
theorem Tame.of_cut (ht : Tame text) (h : Cut text n cs) : Tame cs := by
  induction h with
  | whole => exact ht
  | trivia _ ih => exact ih.skipTrivia
  | name _ hc ih => exact ih.of_name hc
  | digits _ hc ih => exact (ih.of_digits hc).2
  | string _ hs ih => exact ih.of_string hs
  | reference _ hf ih =>
      have word := ((ih.of_plain (by decide)).of_plain (by decide)).of_word hf
        (startsOutside_cons (by decide))
      exact word.of_plain (by decide)
  | symbol _ hc ih => exact ih.of_plain (isPlain_of_isSymbol hc)
  | opening _ ih => exact ih.of_plain (by decide)
  | closing _ ih => exact ih.of_plain (by decide)

/-- A whole word is cut from the start. -/
theorem Cut.word {w : List Char} (h : Cut text n (w ++ rest)) (hw : Text.isName w = true)
    (hr : Ends rest) : Cut text n rest := by
  obtain ⟨c, cs, rfl, hc⟩ := exists_cons_of_isName hw
  rw [List.cons_append] at h
  have := h.name hc
  rwa [Text.dropWhile_run (isName_cons hw).2 hr] at this

/-! ### Blanks and single characters -/

/-- Blanks and comments lead from cut to cut. -/
theorem keeps_trivia : Keeps (Cut text n) trivia fun _ => True := by
  intro cs a rest h hp
  cases hp
  exact ⟨h.trivia, trivial⟩

/-- A symbol leads from cut to cut. -/
theorem keeps_char (hc : isSymbol c = true) : Keeps (Cut text n) (char c) fun _ => True := by
  intro cs a rest h hp
  obtain rfl := char_eq_ok hp
  exact ⟨h.symbol hc, trivial⟩

theorem keeps_spaced (hc : isSymbol c = true) : Keeps (Cut text n) (spaced c) fun _ => True :=
  keeps_trivia.bind fun _ _ => keeps_char hc

/-- Punctuation leads from cut to cut. -/
theorem keeps_punctuation (hc : isSymbol c = true) :
    Keeps (Cut text n) (punctuation c) fun _ => True :=
  (keeps_spaced hc).commit.expectingChar c

/-- An argument leads from cut to cut as what it is does. -/
theorem keeps_argument {p : Grammar α} {Q : α → Prop} (h : Keeps (Cut text n) p Q) :
    Keeps (Cut text n) (argument p) Q :=
  keeps_trivia.bind fun _ _ => h.commit

/-- An opening parenthesis leads to a cut with one more open. -/
theorem takes_opening : Takes (Cut text n) (Cut text (n + 1)) (char '(') fun _ => True := by
  intro cs a rest h hp
  obtain rfl := char_eq_ok hp
  exact ⟨h.opening, trivial⟩

/-- A closing parenthesis leads to a cut with one less open. -/
theorem takes_closing : Takes (Cut text (n + 1)) (Cut text n) (punctuation ')') fun _ => True := by
  have close : Takes (Cut text (n + 1)) (Cut text n) (char ')') fun _ => True := by
    intro cs a rest h hp
    obtain rfl := char_eq_ok hp
    exact ⟨h.closing, trivial⟩
  exact (keeps_trivia.bind fun _ _ => close).commit.expectingChar ')'

/-! ### Words -/

/-- Characters that are read by themselves. -/
theorem keeps_exact {part : List Char} (ht : part.all isSymbol = true) :
    Keeps (Cut text n) (exact part) fun _ => True := by
  intro cs a rest h hp
  obtain rfl := exact_eq_ok hp
  refine ⟨?_, trivial⟩
  clear hp
  induction part with
  | nil => exact h
  | cons c part ih =>
      rw [List.all_cons, Bool.and_eq_true] at ht
      exact ih ht.2 (h.symbol ht.1)

/-- A word leads from cut to cut. -/
theorem keeps_word {w : String} (hw : isName w = true) :
    Keeps (Cut text n) (word w) fun _ => True := by
  intro cs u rest h hp
  obtain ⟨_, mid, he, hb⟩ := bind_eq_ok hp
  obtain rfl := exact_eq_ok he
  obtain ⟨rfl, hr⟩ := notBefore_eq_ok hb
  exact ⟨h.word hw hr, trivial⟩

/-- What is read as a keyword is one, and stands at the start of the text. -/
theorem keyword_eq_ok {op : Connective} {u : Unit} (h : keyword op cs = .ok u rest) :
    ∃ w, cs = w ++ rest ∧ sameLetters op.keyword.toList w = true ∧ Ends rest := by
  obtain ⟨_, mid, hl, hb⟩ := bind_eq_ok h
  rw [letters] at hl
  split at hl
  · rename_i hs
    cases hl
    obtain ⟨rfl, hr⟩ := notBefore_eq_ok hb
    exact ⟨_, (List.take_append_drop _ _).symm, hs, hr⟩
  · cases hl

/-- A keyword leads from cut to cut. -/
theorem keeps_keyword (op : Connective) : Keeps (Cut text n) (keyword op) fun _ => True := by
  intro cs u rest h hp
  obtain ⟨w, rfl, hs, hr⟩ := keyword_eq_ok hp
  exact ⟨h.word (isName_of_sameLetters hs) hr, trivial⟩

theorem keeps_connective : Keeps (Cut text n) connective fun _ => True := by
  have one (op : Connective) :
      Keeps (Cut text n) (do keyword op; return op : Grammar Connective) fun _ => True :=
    (keeps_keyword op).bind fun _ _ => .pure trivial
  exact (one .and).orElse ((one .or).orElse ((one .not).orElse ((one .xor).orElse (one .implies))))

/-- What is read as a name is one, and stands at the start of the text. -/
theorem name_eq_ok {w : List Char} (h : name cs = .ok w rest) :
    cs = w ++ rest ∧ Text.isName w = true := by
  cases cs with
  | nil => cases h
  | cons c cs =>
      rw [name] at h
      split at h
      · rename_i hc
        cases h
        exact ⟨congrArg (c :: ·) List.takeWhile_append_dropWhile.symm,
          Bool.and_eq_true_iff.mpr ⟨hc, List.all_takeWhile⟩⟩
      · cases h

/-- A name was read from its text. -/
theorem nameString_eq_ok {s : String} (h : nameString cs = .ok s rest) :
    cs = s.toList ++ rest ∧ isName s = true := by
  obtain ⟨w, mid, hw, he⟩ := bind_eq_ok h
  cases he
  rw [isName, String.toList_ofList]
  exact name_eq_ok hw

theorem keeps_name : Keeps (Cut text n) name fun w => Text.isName w = true := by
  intro cs w rest h hp
  refine ⟨?_, (name_eq_ok hp).2⟩
  cases cs with
  | nil => cases hp
  | cons c cs =>
      rw [name] at hp
      split at hp
      · rename_i hc
        cases hp
        exact h.name hc
      · cases hp

/-- A name leads from cut to cut. -/
theorem keeps_nameString : Keeps (Cut text n) nameString fun s => isName s = true :=
  keeps_name.bind fun w hw => .pure (by rwa [isName, String.toList_ofList])

/-- A reference leads from cut to cut, and names a field. -/
theorem keeps_fieldReference : Keeps (Cut text n) fieldReference fun s => isName s = true := by
  intro cs s rest h hp
  obtain ⟨_, behind, he, hfield⟩ := bind_eq_ok hp
  obtain rfl := exact_eq_ok he
  obtain ⟨field, close, hf, hclose⟩ := bind_eq_ok hfield
  obtain ⟨rfl, hn⟩ := nameString_eq_ok (commit_eq_ok (marked_eq_ok hf))
  obtain ⟨_, last, hc, hs⟩ := bind_eq_ok hclose
  obtain rfl := char_eq_ok (commit_eq_ok (marked_eq_ok hc))
  cases hs
  exact ⟨h.reference hn, hn⟩

/-- A field leads from cut to cut, and has a name. -/
theorem keeps_fieldName : Keeps (Cut text n) fieldName fun s => isName s = true :=
  (keeps_fieldReference.orElse keeps_nameString).expecting "field name"

/-- A comparison leads from cut to cut. -/
theorem keeps_comparison : Keeps (Cut text n) comparison fun _ => True := by
  have symbol (part : List Char) (c : Comparison) (ht : part.all isSymbol = true) :
      Keeps (Cut text n) (do exact part; return c : Grammar Comparison) fun _ => True :=
    (keeps_exact ht).bind fun _ _ => .pure trivial
  have spelled (w : String) (c : Comparison) (hw : isName w = true) :
      Keeps (Cut text n) (do word w; return c : Grammar Comparison) fun _ => True :=
    (keeps_word hw).bind fun _ _ => .pure trivial
  exact (symbol _ _ (by decide)).orElse ((symbol _ _ (by decide)).orElse
    ((symbol _ _ (by decide)).orElse ((symbol _ _ (by decide)).orElse
    ((symbol _ _ (by decide)).orElse ((symbol _ _ (by decide)).orElse
    ((spelled _ _ (by decide)).orElse ((spelled _ _ (by decide)).orElse
    (spelled _ _ (by decide)))))))))

/-! ### Literals -/

/-- A string literal leads from cut to cut. -/
theorem keeps_stringLiteral : Keeps (Cut text n) stringLiteral fun _ => True := by
  intro cs s rest h hp
  obtain ⟨_, inner, hq, hs⟩ := bind_eq_ok hp
  obtain rfl := char_eq_ok hq
  obtain ⟨body, behind, hs, he⟩ := bind_eq_ok (p := stringRest) hs
  cases he
  exact ⟨h.string hs, trivial⟩

/-- Digits were read as far as they go. -/
theorem digits_eq_ok {ds : List Char} (h : digits cs = .ok ds rest) :
    ds ≠ [] ∧ ds = cs.takeWhile Char.isDigit ∧ rest = cs.dropWhile Char.isDigit := by
  rw [digits] at h
  cases e : cs.takeWhile Char.isDigit with
  | nil => rw [e] at h; cases h
  | cons d ds =>
      rw [e] at h
      cases h
      exact ⟨List.cons_ne_nil d ds, rfl, rfl⟩

/-- Digits start with one. -/
theorem exists_cons_of_digits {ds : List Char} (h : digits cs = .ok ds rest) :
    ∃ d t, cs = d :: t ∧ d.isDigit = true ∧ rest = t.dropWhile Char.isDigit := by
  obtain ⟨hne, rfl, rfl⟩ := digits_eq_ok h
  cases cs with
  | nil => exact absurd rfl hne
  | cons c cs =>
      cases hc : c.isDigit with
      | true => exact ⟨c, cs, rfl, hc, List.dropWhile_cons_of_pos hc⟩
      | false =>
          rw [List.takeWhile_cons_of_neg (by simp [hc])] at hne
          exact absurd rfl hne

theorem keeps_digits : Keeps (Cut text n) digits fun _ => True := by
  intro cs ds rest h hp
  obtain ⟨d, t, rfl, hd, rfl⟩ := exists_cons_of_digits hp
  exact ⟨h.digits hd, trivial⟩

/-- What digits stand for in a tame text is finite, if a point follows them. -/
theorem finiteHere_of_digits {ds : List Char} (h : Tame cs) (hp : digits cs = .ok ds rest) :
    FiniteHere cs := by
  obtain ⟨d, t, rfl, hd, -⟩ := exists_cons_of_digits hp
  exact (h.of_digits hd).1

/-- A point and digits lead from cut to cut. -/
theorem keeps_places :
    Keeps (Cut text n) (do char '.'; digits : Grammar (List Char)) fun _ => True :=
  (keeps_char (by decide)).bind fun _ _ => keeps_digits

theorem places_eq_ok {places : List Char}
    (h : (do char '.'; digits : Grammar (List Char)) cs = .ok places rest) :
    ∃ t, cs = '.' :: t ∧ places = t.takeWhile Char.isDigit := by
  obtain ⟨_, t, hc, hd⟩ := bind_eq_ok h
  exact ⟨t, char_eq_ok hc, (digits_eq_ok hd).2.1⟩

/-- **A number is finite or cannot be written**, and in a tame text it is finite. -/
theorem keeps_number : Keeps (Cut text n) number fun v => Clears text v.check := by
  refine (keeps_char (by decide)).optional.bind fun sign _ => ?_
  intro cs v rest h hp
  obtain ⟨whole, behind, hw, hp⟩ := bind_eq_ok hp
  have hb := (keeps_digits cs whole behind h hw).1
  have finite (ht : Tame text) : FiniteHere cs := finiteHere_of_digits (ht.of_cut h) hw
  obtain ⟨-, rfl, rfl⟩ := digits_eq_ok hw
  obtain ⟨frac, last, hf, hp⟩ := bind_eq_ok hp
  obtain ⟨hl, -⟩ := keeps_places.optional _ _ _ hb hf
  cases frac with
  | none =>
      exact Takes.ite (Q := fun v => Clears text v.check) (.pure .ok) (.abort []) _ _ _ hl hp
  | some places =>
      cases hp
      refine ⟨hl, fun e he => ?_⟩
      obtain ⟨_, e, hf⟩ | ⟨e, -⟩ := optional_eq_ok hf
      · cases e
        obtain ⟨t, point, rfl⟩ := places_eq_ok hf
        rw [Literal.check] at he
        split at he
        · cases he
        · rename_i infinite
          cases he
          exact ⟨fun ht => infinite (by rw [Binary64.isFinite_ofDecimal]; exact finite ht t point),
            _, Bool.eq_false_of_not_eq_true infinite, rfl⟩
      · cases e

/-- A literal leads from cut to cut, and is finite in a tame text. -/
theorem keeps_literalValue : Keeps (Cut text n) literalValue fun v => Clears text v.check := by
  have spelled (w : String) (v : Literal) (hw : isName w = true) (hv : v.check = .ok ()) :
      Keeps (Cut text n) (do word w; return v : Grammar Literal) fun v => Clears text v.check :=
    (keeps_word hw).bind fun _ _ => .pure (.of_eq_ok hv)
  have quoted : Keeps (Cut text n) (do let s ← stringLiteral; return .string s : Grammar Literal)
      fun v => Clears text v.check :=
    keeps_stringLiteral.bind fun _ _ => .pure .ok
  exact (quoted.orElse ((spelled "true" (.bool true) (by decide) rfl).orElse
    ((spelled "false" (.bool false) (by decide) rfl).orElse
    ((spelled "null" .null (by decide) rfl).orElse keeps_number)))).expecting "literal value"

theorem clears_reference {s : String} (hs : isName s = true) :
    Clears text ((Literal.string s).checkOperand .fieldReference) := .of_eq_ok (if_pos hs)

/-- An operand leads from cut to cut, and is finite in a tame text. -/
theorem keeps_operand :
    Keeps (Cut text n) operand fun v => Clears text (v.1.checkOperand v.2) := by
  have field : Keeps (Cut text n)
      (do let field ← fieldReference; return (.string field, .fieldReference) :
        Grammar (Literal × OperandKind)) fun v => Clears text (v.1.checkOperand v.2) :=
    keeps_fieldReference.bind fun _ hs => .pure (clears_reference hs)
  have literal : Keeps (Cut text n)
      (do let v ← literalValue; return (v, .literal) : Grammar (Literal × OperandKind))
      fun v => Clears text (v.1.checkOperand v.2) :=
    keeps_literalValue.bind fun _ hv => .pure hv
  exact (field.orElse literal).expecting "value"

/-- A natural number leads from cut to cut. -/
theorem keeps_naturalBelow (bound : Nat) :
    Keeps (Cut text n) (naturalBelow bound) fun _ => True := by
  refine Takes.expecting (fun cs k rest h hp => ?_) "non-negative integer"
  cases hd : digits cs with
  | fail f r => rw [hd] at hp; cases hp
  | ok ds r =>
      rw [hd] at hp
      dsimp only at hp
      split at hp
      · cases hp
        exact keeps_digits _ _ _ h hd
      · cases hp

/-- A payload leads from cut to cut. -/
theorem keeps_payload : Keeps (Cut text n) payload fun _ => True := by
  refine Takes.expecting (fun cs p rest h hp => ?_) "JSON payload string"
  cases hs : stringLiteral cs with
  | fail f r => rw [hs] at hp; cases hp
  | ok s r =>
      rw [hs] at hp
      dsimp only at hp
      split at hp
      · cases hp
        exact ⟨(keeps_stringLiteral _ _ _ h hs).1, trivial⟩
      · cases hp

end

end Rulebook.Dsl
