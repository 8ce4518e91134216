import Rulebook.Lint.TokenChecks
import Rulebook.Proofs.Dsl.Lexeme

/-!
# Rulebook — Proofs — Lint — Tokens

Parentheses in the tokens of a text.  A text *closes* a number of parentheses if it has their
partners in it, outside of string literals, comments and field references, and a partner for each
parenthesis of its own (`Closes`).  The relation reads one character at a time; tokens are longer,
but what a token takes beyond its first character is nothing that counts (`nextToken_of_isInert`).
The tokens of such a text leave no parenthesis without a partner (`Closes.unmatched_tokensWithin`).
-/

namespace Rulebook.Lint

variable {n : Nat} {c : Char} {cs rest : List Char}

/-- The parentheses, and the characters that string literals, comments and references start with. -/
def activeChars : List Char := ['"', '#', '$', '(', ')']

/-- A character that is no parenthesis, starts no string literal, comment or reference, and is no
blank beyond ASCII: the linter skips those, and the grammar reads none. -/
def isInert (c : Char) : Bool :=
  !activeChars.contains c && (Text.isAsciiBlank c || !Text.isBlank c)

/-- A text with the closing parentheses for `n` open ones, and with a partner for each of its
own. -/
inductive Closes : Nat → List Char → Prop where
  | nil : Closes 0 []
  | inert {n : Nat} {c : Char} {cs : List Char} (hc : isInert c = true) (t : Closes n cs) :
      Closes n (c :: cs)
  | string {n : Nat} {cs s rest : List Char} (hs : Dsl.stringRest cs = .ok s rest)
      (t : Closes n rest) : Closes n ('"' :: cs)
  | comment {n : Nat} {cs : List Char} (hl : Dsl.lineCloses cs = true)
      (t : Closes n (Dsl.splitLine cs).2) : Closes n ('#' :: cs)
  | reference {n : Nat} {field rest : List Char} (hf : Text.isName field = true)
      (t : Closes n rest) : Closes n ('$' :: '\x7b' :: (field ++ '\x7d' :: rest))
  | opening {n : Nat} {cs : List Char} (t : Closes (n + 1) cs) : Closes n ('(' :: cs)
  | closing {n : Nat} {cs : List Char} (t : Closes n cs) : Closes (n + 1) (')' :: cs)

/-- Every character of a class is inert if none of the few others is in it, blanks beyond ASCII
apart. -/
theorem isInert_of_class {inside : Char → Bool}
    (hs : activeChars.all (fun d => !inside d) = true) (h : inside c = true)
    (hb : Text.isBlank c = true → Text.isAsciiBlank c = true) : isInert c = true := by
  have outside := Text.not_mem_of_class hs h
  rw [isInert, Bool.and_eq_true, Bool.or_eq_true, Bool.not_eq_true', Bool.not_eq_true',
    ← Bool.not_eq_true, List.contains_iff_mem]
  refine ⟨outside, ?_⟩
  cases e : Text.isBlank c with
  | true => exact .inl (hb e)
  | false => exact .inr rfl

theorem isInert_of_isAsciiBlank (h : Text.isAsciiBlank c = true) : isInert c = true :=
  @isInert_of_class c Text.isAsciiBlank (by decide) h fun _ => h

theorem isInert_of_mem_takeWhile {inside : Char → Bool}
    (hi : ∀ c, inside c = true → isInert c = true) (cs : List Char) :
    ∀ d ∈ cs.takeWhile inside, isInert d = true :=
  fun d hd => hi d (List.all_eq_true.mp List.all_takeWhile d hd)

namespace Closes

/-- Behind an inert character the parentheses are the same. -/
theorem of_inert (h : Closes n (c :: cs)) (hc : isInert c = true) : Closes n cs := by
  cases h with
  | inert _ t => exact t
  | string _ _ => cases hc
  | comment _ _ => cases hc
  | reference _ _ => cases hc
  | opening _ => cases hc
  | closing _ => cases hc

/-- There is no blank beyond ASCII between the tokens. -/
theorem of_blank (h : Closes n (c :: cs)) (hb : Text.isBlank c = true) :
    Text.isAsciiBlank c = true ∧ Closes n cs := by
  cases h with
  | inert hc t =>
      refine ⟨?_, t⟩
      simpa [isInert, hb] using (Bool.and_eq_true_iff.mp hc).2
  | string _ _ => exact absurd hb (by decide)
  | comment _ _ => exact absurd hb (by decide)
  | reference _ _ => exact absurd hb (by decide)
  | opening _ => exact absurd hb (by decide)
  | closing _ => exact absurd hb (by decide)

/-- Behind blanks the parentheses are the same. -/
theorem dropBlanks (h : Closes n cs) : Closes n (cs.dropWhile Text.isBlank) := by
  induction cs with
  | nil => exact h
  | cons c cs ih =>
      cases hb : Text.isBlank c with
      | true =>
          rw [List.dropWhile_cons_of_pos hb]
          exact ih (h.of_blank hb).2
      | false => rwa [List.dropWhile_cons_of_neg (Bool.eq_false_iff.mp hb)]

/-- Behind a comment the parentheses are the same. -/
theorem of_comment (h : Closes n ('#' :: cs)) : Closes n (Dsl.splitLine cs).2 := by
  cases h with
  | inert hc _ => cases hc
  | comment _ t => exact t

/-- Behind a part of inert characters the parentheses are the same. -/
theorem of_append {part : List Char} (h : Closes n (part ++ rest))
    (hp : ∀ d ∈ part, isInert d = true) : Closes n rest := by
  induction part with
  | nil => exact h
  | cons c part ih =>
      obtain ⟨hc, hp⟩ := List.forall_mem_cons.mp hp
      exact ih (h.of_inert hc) hp

/-- In front of a text a part of inert characters changes no parentheses. -/
theorem append {part : List Char} (hp : ∀ d ∈ part, isInert d = true) (h : Closes n rest) :
    Closes n (part ++ rest) := by
  induction part with
  | nil => exact h
  | cons c part ih =>
      obtain ⟨hc, hp⟩ := List.forall_mem_cons.mp hp
      exact .inert hc (ih hp)

theorem of_dropWhile {inside : Char → Bool} (hi : ∀ c, inside c = true → isInert c = true)
    (h : Closes n (cs.dropWhile inside)) : Closes n cs := by
  have whole := h.append (isInert_of_mem_takeWhile hi cs)
  rwa [List.takeWhile_append_dropWhile] at whole

end Closes

/-! ### One token -/

/-- The token of a string literal ends where the grammar ends the literal, whatever follows. -/
theorem stringBody_of_stringRest {s : List Char} (h : Dsl.stringRest cs = .ok s rest) :
    ∃ body, stringBody cs = (body, rest) ∧ body ++ rest = cs ∧
      ∀ t, Dsl.stringRest (body ++ t) = .ok s t := by
  fun_induction Dsl.stringRest cs generalizing s with
  | case1 => cases h
  | case2 cs =>
      cases h
      exact ⟨['"'], rfl, rfl, fun _ => rfl⟩
  | case3 => cases h
  | case4 e cs s' rest' hs ih =>
      cases h
      obtain ⟨body, hb, rfl, ht⟩ := ih hs
      refine ⟨'\\' :: e :: body, by rw [stringBody, hb], rfl, fun t => ?_⟩
      rw [List.cons_append, List.cons_append, Dsl.stringRest, ht]
  | case5 e cs f rest' hs => cases h
  | case6 c cs quote last escape s' rest' hs ih =>
      cases h
      obtain ⟨body, hb, rfl, ht⟩ := ih hs
      refine ⟨c :: body, ?_, rfl, fun t => ?_⟩
      · rw [stringBody, hb]
        · exact quote
        · exact last
        · exact escape
      · have plain := Text.ne_backslash last escape
        rw [List.cons_append, Dsl.stringRest, ht]
        · exact quote
        · exact fun e => absurd e plain
        · exact fun _ _ e => absurd e plain
  | case7 c cs quote last escape f rest' hs => cases h

/-- The body of a reference is the field's name and the brace behind it. -/
theorem referenceBody_append {field : List Char} (h : Text.isName field = true)
    (rest : List Char) : referenceBody (field ++ '\x7d' :: rest) = (field ++ ['\x7d'], rest) := by
  have inside : '\x7d' ∉ field := fun brace =>
    absurd (Dsl.isNamePart_of_isName h _ brace) (by decide)
  clear h
  induction field with
  | nil => rfl
  | cons c field ih =>
      obtain ⟨hc, hf⟩ := not_or.mp (mt List.mem_cons.mpr inside)
      rw [List.cons_append, referenceBody, if_neg (Ne.symm hc), ih hf]
      rfl

/-- A line and what is behind it are the text. -/
theorem splitLine_append (cs : List Char) :
    (Dsl.splitLine cs).1 ++ (Dsl.splitLine cs).2 = cs := by
  fun_induction Dsl.splitLine cs with
  | case1 => rfl
  | case2 => rfl
  | case3 => rfl
  | case4 cs _ _ e _ _ ih => exact congrArg ('\r' :: ·) ih
  | case5 c cs _ _ line rest e ih =>
      rw [e] at ih
      exact congrArg (c :: ·) ih

/-- The kind of a token of one character. -/
def charKind (c : Char) : TokenKind :=
  if c = '(' then .opening else if c = ')' then .closing else if c = ',' then .comma else .other

/-- What the first token of a text may be, and what follows it. -/
inductive TokenAt (c : Char) (cs : List Char) : TokenKind → List Char → List Char → Prop where
  | comment (hc : c = '#') (hl : Dsl.lineCloses cs = true) :
      TokenAt c cs .comment (c :: (Dsl.splitLine cs).1) (Dsl.splitLine cs).2
  | reference (hc : c = '$') :
      TokenAt c cs .fieldReference (c :: '\x7b' :: (referenceBody cs.tail).1)
        (referenceBody cs.tail).2
  | string (hc : c = '"') : TokenAt c cs .string (c :: (stringBody cs).1) (stringBody cs).2
  | number {body rest : List Char} (hn : numberToken (c :: cs) = some (body, rest)) :
      TokenAt c cs .number body rest
  | word (hw : Text.isNameStart c = true) :
      TokenAt c cs .word (c :: cs.takeWhile Text.isNamePart) (cs.dropWhile Text.isNamePart)
  | comparison {s : List Char} (hs : (symbols.find? fun s => s.isPrefixOf (c :: cs)) = some s) :
      TokenAt c cs .comparison s ((c :: cs).drop s.length)
  | char (hn : numberToken (c :: cs) = none) (hw : Text.isNameStart c = false)
      (hs : (symbols.find? fun s => s.isPrefixOf (c :: cs)) = none) :
      TokenAt c cs (charKind c) [c] cs

/-- **The first token of a text**, by what is looked for in turn. -/
theorem tokenAt_of_nextToken {kind : TokenKind} {text : List Char}
    (h : nextToken c cs = (kind, text, rest)) : TokenAt c cs kind text rest := by
  -- each test that fails is kept for the kinds that come after it
  rw [nextToken] at h
  split at h
  · rename_i mark
    rw [Bool.and_eq_true, decide_eq_true_eq] at mark
    cases h
    exact .comment mark.1 mark.2
  split at h
  · rename_i dollar
    rw [Bool.and_eq_true, decide_eq_true_eq] at dollar
    cases h
    obtain rfl := dollar.1
    exact .reference rfl
  split at h
  · rename_i quote
    cases h
    exact .string quote
  split at h
  · rename_i hn
    cases h
    exact .number hn
  rename_i hn
  split at h
  · rename_i hw
    cases h
    exact .word hw
  rename_i hw
  split at h
  · rename_i hs
    cases h
    exact .comparison hs
  rename_i hs
  have char := TokenAt.char hn (Bool.eq_false_iff.mpr hw) hs
  rw [charKind] at char
  split at h
  · cases h
    rwa [if_pos ‹_›] at char
  rw [if_neg ‹_›] at char
  split at h
  · cases h
    rwa [if_pos ‹_›] at char
  rw [if_neg ‹_›] at char
  split at h
  · cases h
    rwa [if_pos ‹_›] at char
  · cases h
    rwa [if_neg ‹_›] at char

/-- A run of inert characters at the start of a text, and what follows it. -/
structure InertRun (cs run rest : List Char) : Prop where
  tiles : run ++ rest = cs
  nonempty : run ≠ []
  inert : ∀ d ∈ run, isInert d = true

theorem isInert_of_isNamePart (h : Text.isNamePart c = true) : isInert c = true :=
  isInert_of_class (by decide) h fun hb => by rw [Dsl.isBlank_of_isNamePart h] at hb; cases hb

theorem isInert_of_isDigit (h : c.isDigit = true) : isInert c = true :=
  isInert_of_isNamePart (Dsl.isNamePart_of_isDigit h)

/-- A number is digits, and a point with more of them. -/
theorem inertRun_numberBody {run : List Char} (h : numberBody cs = some (run, rest)) :
    InertRun cs run rest := by
  have digits := isInert_of_mem_takeWhile fun _ => isInert_of_isDigit
  have tile := List.takeWhile_append_dropWhile (p := Char.isDigit) (l := cs)
  rw [numberBody] at h
  split at h
  · cases h
  · rename_i whole _ places point hne
    rw [point] at tile
    split at h
    · cases h
      exact ⟨tile, hne, digits cs⟩
    · cases h
      refine ⟨?_, by simp, ?_⟩
      · rw [List.append_assoc, List.cons_append, List.takeWhile_append_dropWhile, tile]
      · exact List.forall_mem_append.mpr
          ⟨digits cs, List.forall_mem_cons.mpr ⟨by decide, digits places⟩⟩
  · rename_i hne _
    cases h
    exact ⟨tile, hne, digits cs⟩

/-- A number is a run of inert characters. -/
theorem inertRun_numberToken {run : List Char} (h : numberToken cs = some (run, rest)) :
    InertRun cs run rest := by
  rw [numberToken.eq_def] at h
  split at h
  · obtain ⟨⟨body, after⟩, hb, e⟩ := Option.map_eq_some_iff.mp h
    cases e
    have number := inertRun_numberBody hb
    exact ⟨congrArg ('-' :: ·) number.tiles, List.cons_ne_nil _ _,
      List.forall_mem_cons.mpr ⟨by decide, number.inert⟩⟩
  · exact inertRun_numberBody h

/-- A comparison symbol is a run of inert characters. -/
theorem inertRun_symbol {s : List Char}
    (h : (symbols.find? fun s => s.isPrefixOf cs) = some s) :
    InertRun cs s (cs.drop s.length) := by
  have stands : s.isPrefixOf cs = true := by simpa using List.find?_some h
  obtain ⟨after, rfl⟩ := List.isPrefixOf_iff_prefix.mp stands
  rw [List.drop_left]
  have inert : symbols.all (fun s => !s.isEmpty && s.all isInert) = true := by decide
  have hs := List.all_eq_true.mp inert s (List.mem_of_find?_eq_some h)
  rw [Bool.and_eq_true, Bool.not_eq_true', List.isEmpty_eq_false_iff] at hs
  exact ⟨rfl, hs.1, List.all_eq_true.mp hs.2⟩

/-- A token that starts with an inert character is a run of them, and no parenthesis. -/
theorem nextToken_of_isInert (hc : isInert c = true) (cs : List Char) :
    ∃ kind run rest, nextToken c cs = (kind, run, rest) ∧ InertRun (c :: cs) run rest ∧
      kind ≠ .opening ∧ kind ≠ .closing := by
  have sole : InertRun (c :: cs) [c] cs :=
    ⟨rfl, List.cons_ne_nil _ _, List.forall_mem_singleton.mpr hc⟩
  have other {d : Char} (hd : isInert d = false) : c ≠ d := by
    rintro rfl
    rw [hc] at hd
    cases hd
  obtain ⟨kind, run, rest, e⟩ : ∃ kind run rest, nextToken c cs = (kind, run, rest) :=
    ⟨_, _, _, rfl⟩
  refine ⟨kind, run, rest, e, ?_⟩
  cases tokenAt_of_nextToken e with
  | comment mark _ => exact absurd mark (other rfl)
  | reference dollar => exact absurd dollar (other rfl)
  | string quote => exact absurd quote (other rfl)
  | number hn => exact ⟨inertRun_numberToken hn, nofun, nofun⟩
  | word _ =>
      refine ⟨⟨?_, List.cons_ne_nil _ _, ?_⟩, nofun, nofun⟩
      · exact congrArg (c :: ·) List.takeWhile_append_dropWhile
      · exact List.forall_mem_cons.mpr
          ⟨hc, isInert_of_mem_takeWhile (fun _ => isInert_of_isNamePart) cs⟩
  | comparison hs => exact ⟨inertRun_symbol hs, nofun, nofun⟩
  | char _ _ _ =>
      rw [charKind, if_neg (other rfl), if_neg (other rfl)]
      split
      · exact ⟨sole, nofun, nofun⟩
      · exact ⟨sole, nofun, nofun⟩

/-- The first token changes the number of open parentheses by one if it is a parenthesis, and not
at all if it is anything else. -/
theorem Closes.nextToken (h : Closes n (c :: cs)) :
    ∃ kind run rest, nextToken c cs = (kind, run, rest) ∧ rest.length ≤ cs.length ∧
      ((kind = .opening ∧ Closes (n + 1) rest) ∨
        (kind = .closing ∧ ∃ m, n = m + 1 ∧ Closes m rest) ∨
        (kind ≠ .opening ∧ kind ≠ .closing ∧ Closes n rest)) := by
  cases h with
  | inert hc t =>
      obtain ⟨kind, run, rest, e, piece, ho, hcl⟩ := nextToken_of_isInert hc cs
      have left : Closes n rest := (piece.tiles ▸ Closes.inert hc t).of_append piece.inert
      refine ⟨kind, run, rest, e, ?_, .inr (.inr ⟨ho, hcl, left⟩)⟩
      have length := congrArg List.length piece.tiles
      have positive := List.length_pos_iff.mpr piece.nonempty
      rw [List.length_append, List.length_cons] at length
      omega
  | string hs t =>
      obtain ⟨body, e, rfl, -⟩ := stringBody_of_stringRest hs
      refine ⟨.string, '"' :: body, _, ?_, ?_, .inr (.inr ⟨nofun, nofun, t⟩)⟩
      · simp [Lint.nextToken, e]
      · simp
  | comment hl t =>
      refine ⟨.comment, '#' :: (Dsl.splitLine cs).1, _, ?_, ?_, .inr (.inr ⟨nofun, nofun, t⟩)⟩
      · simp [Lint.nextToken, hl]
      · have length := congrArg List.length (splitLine_append cs)
        rw [List.length_append] at length
        omega
  | @reference _ field rest hf t =>
      refine ⟨.fieldReference, '$' :: '\x7b' :: (field ++ ['\x7d']), rest, ?_, ?_,
        .inr (.inr ⟨nofun, nofun, t⟩)⟩
      · simp [Lint.nextToken, referenceBody_append hf]
      · simp
        omega
  | opening t => exact ⟨.opening, ['('], cs, rfl, Nat.le_refl _, .inl ⟨rfl, t⟩⟩
  | closing t =>
      exact ⟨.closing, [')'], cs, rfl, Nat.le_refl _, .inr (.inl ⟨rfl, _, rfl, t⟩)⟩

/-! ### All tokens -/

/-- A token that is no parenthesis does not count. -/
theorem unmatched_cons {t : Token} (ho : t.kind ≠ .opening) (hc : t.kind ≠ .closing)
    (openings : List Nat) (ts : List Token) :
    unmatched openings (t :: ts) = unmatched openings ts := by
  rw [unmatched.eq_def]
  dsimp only
  split
  · exact absurd ‹_› ho
  · exact absurd ‹_› hc
  · exact absurd ‹_› hc
  · rfl

/-- **The tokens of a text that closes the open parentheses leave none without a partner.** -/
theorem Closes.unmatched_tokensWithin {fuel offset : Nat} {openings : List Nat} (h : Closes n cs)
    (enough : cs.length < fuel) (open_eq : openings.length = n) :
    unmatched openings (tokensWithin fuel offset cs) = ⟨[], []⟩ := by
  -- The tokens are longer than the steps of `Closes`, so that the induction cannot be on `h`.
  induction fuel generalizing n cs offset openings with
  | zero => exact absurd enough (Nat.not_lt_zero _)
  | succ fuel ih =>
      have behind := h.dropBlanks
      have shorter : (cs.dropWhile Text.isBlank).length ≤ cs.length :=
        (List.dropWhile_suffix _).length_le
      rw [tokensWithin]
      cases e : cs.dropWhile Text.isBlank with
      | nil =>
          rw [e] at behind
          cases behind
          obtain rfl := List.eq_nil_of_length_eq_zero open_eq
          rfl
      | cons c rest =>
          rw [e] at behind shorter
          obtain ⟨kind, run, after, ht, length, depth⟩ := behind.nextToken
          dsimp only
          rw [ht]
          dsimp only
          have left : after.length < fuel := by
            rw [List.length_cons] at shorter
            omega
          obtain ⟨rfl, t⟩ | ⟨rfl, m, rfl, t⟩ | ⟨ho, hc, t⟩ := depth
          · exact ih t left (congrArg Nat.succ open_eq)
          · cases openings with
            | nil => cases open_eq
            | cons o openings => exact ih t left (Nat.succ.inj open_eq)
          · split
            · exact ih t left open_eq
            · rw [unmatched_cons ho hc]
              exact ih t left open_eq

end Rulebook.Lint
