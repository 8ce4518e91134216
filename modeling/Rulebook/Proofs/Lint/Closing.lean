import Mathlib.Data.List.Find
import Rulebook.Proofs.Lint.Checks
import Rulebook.Proofs.Lint.Heads

/-!
# Rulebook — Proofs — Lint — Closing

The fix of unclosed parentheses puts the missing ones behind the text.  Every token of the text is
there as it was, and the new ones behind it are tokens of their own, unless the text ends inside a
comment, a string literal or a field reference (`endsInside`): then that goes on over them.  The fix
therefore leaves nothing to report just if the text does not end inside one
(`lint_closed_iff`).
-/

namespace Rulebook.Lint

open Text (StartsOutside)

variable {n fuel : Nat} {c : Char} {cs rest text : List Char} {kind : TokenKind}

/-- Closing parentheses. -/
def closers (n : Nat) : List Char := List.replicate n ')'

theorem startsOutside_closers {inside : Char → Bool} (h : inside ')' = false) (n : Nat) :
    StartsOutside inside (closers n) := by
  intro d hd
  obtain rfl := List.eq_of_mem_replicate (List.mem_of_mem_head? hd)
  exact h

/-- Closing parentheses are closed by as many open ones. -/
theorem closes_closers (n : Nat) : Closes n (closers n) := by
  induction n with
  | zero => exact .nil
  | succ n ih => exact .closing ih

/-! ### Where a text ends inside a token -/

/-- Whether a string literal has its closing quote, behind the opening one. -/
def stringCloses : List Char → Bool
  | [] => false
  | '"' :: _ => true
  | '\\' :: [] => false
  | '\\' :: _ :: cs => stringCloses cs
  | _ :: cs => stringCloses cs

/-- Whether the token at the start of a text goes on over what is put behind the text: a comment on
the last line, or a string literal or field reference without its end. -/
def runsOn (c : Char) (cs : List Char) : Bool :=
  if c = '#' && Dsl.lineCloses cs then (Dsl.splitLine cs).2.isEmpty
  else if c = '$' && cs.head? = some '\x7b' then !cs.tail.contains '\x7d'
  else c = '"' && !stringCloses cs

/-- Whether some token of a text runs on; every token takes some text, and `fuel` bounds their
number. -/
def runsOnWithin : (fuel : Nat) → List Char → Bool
  | 0, _ => false
  | fuel + 1, cs =>
    match cs.dropWhile Text.isBlank with
    | [] => false
    | c :: rest => runsOn c rest || runsOnWithin fuel (nextToken c rest).2.2

/-- Whether a text ends inside a comment, a string literal or a field reference. -/
def endsInside (text : List Char) : Bool := runsOnWithin (text.length + 1) text

theorem runsOnWithin_blank (h : Text.isBlank c = true) (cs : List Char) :
    runsOnWithin (fuel + 1) (c :: cs) = runsOnWithin (fuel + 1) cs := by
  rw [runsOnWithin, runsOnWithin, List.dropWhile_cons_of_pos h]

/-- A text runs on if its first token does or if what is behind that does. -/
theorem runsOnWithin_token (hb : Text.isBlank c = false)
    (ht : nextToken c cs = (kind, text, rest)) :
    runsOnWithin (fuel + 1) (c :: cs) = (runsOn c cs || runsOnWithin fuel rest) := by
  rw [runsOnWithin, List.dropWhile_cons_of_neg (Bool.eq_false_iff.mp hb)]
  dsimp only
  rw [ht]

/-! ### One token, with more behind the text -/

/-- Closing parentheses behind a text do not change whether a line of it ends. -/
theorem lineCloses_closers (cs : List Char) (n : Nat) :
    Dsl.lineCloses (cs ++ closers n) = Dsl.lineCloses cs := by
  induction cs with
  | nil =>
      refine Dsl.lineCloses_of_onLine fun d hd => ?_
      obtain rfl := List.eq_of_mem_replicate hd
      decide
  | cons c cs ih =>
      rw [List.cons_append, Dsl.lineCloses.eq_def, Dsl.lineCloses.eq_def (c :: cs)]
      dsimp only
      rw [ih]
      split
      · rfl
      split
      · -- the closing parentheses are no line feed
        cases cs with
        | cons d cs => simp only [List.cons_append]; grind
        | nil => cases n <;> rfl
      · rfl

/-- A line that ends in the text ends there still; the last one goes on. -/
theorem splitLine_closers (h : Dsl.lineCloses cs = true) (n : Nat) :
    (Dsl.splitLine cs).2 = [] ∧ (Dsl.splitLine (cs ++ closers n)).2 = [] ∨
      (Dsl.splitLine cs).2 ≠ [] ∧ Dsl.splitLine (cs ++ closers n) =
        ((Dsl.splitLine cs).1, (Dsl.splitLine cs).2 ++ closers n) := by
  obtain ⟨body, rest, rfl, onLine, ends⟩ := Dsl.exists_line h
  rw [Dsl.splitLine_append onLine ends]
  obtain rfl | ⟨t, rfl | rfl⟩ := ends
  · have longer : Dsl.OnLine (body ++ closers n) := by
      refine List.forall_mem_append.mpr ⟨onLine, fun d hd => ?_⟩
      obtain rfl := List.eq_of_mem_replicate hd
      decide
    have whole := Dsl.splitLine_append longer (.inl rfl)
    rw [List.append_nil] at whole ⊢
    rw [whole]
    exact .inl ⟨rfl, rfl⟩
  · refine .inr ⟨List.cons_ne_nil _ _, ?_⟩
    rw [List.append_assoc]
    exact Dsl.splitLine_append onLine (.inr ⟨t ++ closers n, .inl rfl⟩)
  · refine .inr ⟨List.cons_ne_nil _ _, ?_⟩
    rw [List.append_assoc]
    exact Dsl.splitLine_append onLine (.inr ⟨t ++ closers n, .inr rfl⟩)

/-- A reference with its brace is not changed by what is put behind it. -/
theorem referenceBody_closers (h : cs.contains '\x7d' = true) (n : Nat) :
    referenceBody (cs ++ closers n) = ((referenceBody cs).1, (referenceBody cs).2 ++ closers n) := by
  induction cs with
  | nil => cases h
  | cons c cs ih =>
      rw [List.cons_append, referenceBody, referenceBody]
      split
      · rfl
      · rename_i hc
        have later : cs.contains '\x7d' = true := by simpa [Ne.symm hc] using h
        rw [ih later]

/-- A reference without its end takes all of the text. -/
theorem referenceBody_open (h : cs.contains '\x7d' = false) : referenceBody cs = (cs, []) := by
  induction cs with
  | nil => rfl
  | cons c cs ih =>
      obtain ⟨hc, later⟩ : '\x7d' ≠ c ∧ cs.contains '\x7d' = false := by simpa using h
      rw [referenceBody, if_neg (Ne.symm hc), ih later]

theorem stringCloses_plain {d : Char} (quote : d ≠ '"') (plain : d ≠ '\\') (cs : List Char) :
    stringCloses (d :: cs) = stringCloses cs := by
  rw [stringCloses]
  · exact quote
  · exact fun e => absurd e plain
  · exact fun _ _ e => absurd e plain

theorem stringBody_plain {d : Char} (quote : d ≠ '"') (plain : d ≠ '\\') (cs : List Char) :
    stringBody (d :: cs) = (d :: (stringBody cs).1, (stringBody cs).2) := by
  rw [stringBody]
  · exact quote
  · exact fun e => absurd e plain
  · exact fun _ _ e => absurd e plain

/-- Closing parentheses give a string literal no closing quote. -/
theorem stringCloses_closers (cs : List Char) (n : Nat) :
    stringCloses (cs ++ closers n) = stringCloses cs := by
  have none (n : Nat) : stringCloses (closers n) = false := by
    induction n with
    | zero => rfl
    | succ n ih => exact ih
  fun_induction stringCloses cs with
  | case1 => exact none n
  | case2 => rfl
  | case3 =>
      -- what was put behind the text is escaped
      obtain _ | n := n
      · rfl
      · exact none n
  | case4 d cs ih => exact ih
  | case5 d cs quote last escape ih =>
      rwa [List.cons_append, stringCloses_plain quote (Text.ne_backslash last escape)]

/-- A string literal with its closing quote ends there, whatever follows. -/
theorem stringBody_closers (h : stringCloses cs = true) (n : Nat) :
    stringBody (cs ++ closers n) = ((stringBody cs).1, (stringBody cs).2 ++ closers n) := by
  fun_induction stringCloses cs with
  | case1 => cases h
  | case2 => rfl
  | case3 => cases h
  | case4 d cs ih => rw [List.cons_append, List.cons_append, stringBody, stringBody, ih h]
  | case5 d cs quote last escape ih =>
      have plain := Text.ne_backslash last escape
      rw [List.cons_append, stringBody_plain quote plain, stringBody_plain quote plain, ih h]

/-- What a string literal without its closing quote leaves is nothing, or a backslash with nothing
to escape. -/
def scraps : List (List Char) := [[], ['\\']]

/-- A string literal without its quote leaves nothing, or a backslash. -/
theorem stringBody_open (h : stringCloses cs = false) : (stringBody cs).2 ∈ scraps := by
  fun_induction stringCloses cs with
  | case1 => exact List.mem_cons_self
  | case2 => cases h
  | case3 => exact List.mem_cons_of_mem _ List.mem_cons_self
  | case4 d cs ih => exact ih h
  | case5 d cs quote last escape ih =>
      rw [stringBody_plain quote (Text.ne_backslash last escape)]
      exact ih h

/-- A number is not changed by closing parentheses behind it. -/
theorem numberBody_closers (cs : List Char) (n : Nat) :
    numberBody (cs ++ closers n) =
      (numberBody cs).map fun (body, rest) => (body, rest ++ closers n) := by
  have outside : StartsOutside Char.isDigit (closers n) := startsOutside_closers (by decide) n
  rw [numberBody, numberBody, Text.takeWhile_append cs outside, Text.dropWhile_append cs outside]
  cases cs.takeWhile Char.isDigit with
  | nil => rfl
  | cons d whole =>
      cases cs.dropWhile Char.isDigit with
      | nil => cases n <;> rfl
      | cons e behind =>
          by_cases point : e = '.'
          · subst point
            have places := Text.takeWhile_append behind outside
            have later := Text.dropWhile_append behind outside
            cases h : behind.takeWhile Char.isDigit with
            | nil => simp [places, h]
            | cons p digits => simp [places, later, h]
          · simp [point]

/-- A token that is a number is not changed by closing parentheses behind it. -/
theorem numberToken_closers (c : Char) (cs : List Char) (n : Nat) :
    numberToken (c :: (cs ++ closers n)) =
      (numberToken (c :: cs)).map fun (body, rest) => (body, rest ++ closers n) := by
  have whole := numberBody_closers (c :: cs) n
  rw [List.cons_append] at whole
  by_cases sign : c = '-'
  · subst sign
    rw [numberToken, numberToken, numberBody_closers, Option.map_map, Option.map_map]
    rfl
  · rw [numberToken, numberToken, whole]
    · exact fun _ e => sign (List.cons.inj e).1
    · exact fun _ e => sign (List.cons.inj e).1

/-- A comparison symbol is not changed by closing parentheses behind it. -/
theorem symbols_closers (c : Char) (cs : List Char) (n : Nat) :
    (symbols.find? fun s => s.isPrefixOf (c :: (cs ++ closers n))) =
      symbols.find? fun s => s.isPrefixOf (c :: cs) := by
  -- a symbol has at most two characters, and no parenthesis
  have same : ∀ s ∈ symbols, s.isPrefixOf (c :: (cs ++ closers n)) = s.isPrefixOf (c :: cs) := by
    cases cs with
    | nil => cases n <;> simp [symbols, closers, List.replicate_succ, List.isPrefixOf]
    | cons d cs => simp [symbols, List.isPrefixOf]
  exact List.find?_congr same

/-- A brace behind a dollar sign stands in the text itself. -/
theorem head?_closers (cs : List Char) (n : Nat) :
    (cs ++ closers n).head? = some '\x7b' ↔ cs.head? = some '\x7b' := by
  cases cs with
  | nil => cases n <;> simp [closers, List.replicate_succ]
  | cons d cs => rfl

theorem tail_closers (h : cs.head? = some '\x7b') (n : Nat) :
    (cs ++ closers n).tail = cs.tail ++ closers n := by
  cases cs with
  | nil => cases h
  | cons d cs => rfl

/-- Whether a token runs on does not depend on the parentheses behind the text. -/
theorem runsOn_closers (c : Char) (cs : List Char) (n : Nat) :
    runsOn c (cs ++ closers n) = runsOn c cs := by
  simp only [runsOn, lineCloses_closers, head?_closers, stringCloses_closers]
  split
  · rename_i mark
    obtain ⟨before, after⟩ | ⟨before, after⟩ :=
      splitLine_closers (Bool.and_eq_true_iff.mp mark).2 n
    · rw [before, after]
    · rw [after, List.isEmpty_eq_false_iff.mpr before]
      exact List.isEmpty_eq_false_iff.mpr (List.append_ne_nil_of_left_ne_nil before _)
  split
  · rename_i brace
    simp only [Bool.and_eq_true, decide_eq_true_eq] at brace
    rw [tail_closers brace.2]
    simp [closers]
  · rfl

/-- A token that does not run on is the same with closing parentheses behind the text. -/
theorem nextToken_closers (h : runsOn c cs = false) (n : Nat)
    (ht : nextToken c cs = (kind, text, rest)) :
    nextToken c (cs ++ closers n) = (kind, text, rest ++ closers n) := by
  rw [runsOn] at h
  rw [nextToken] at ht ⊢
  -- every test has the same outcome for both texts, so both take the same branch
  simp only [lineCloses_closers, head?_closers, numberToken_closers, symbols_closers]
  split at ht
  · rename_i mark
    rw [if_pos mark] at h ⊢
    cases ht
    obtain ⟨before, -⟩ | ⟨-, after⟩ := splitLine_closers (Bool.and_eq_true_iff.mp mark).2 n
    · rw [before] at h
      cases h
    · rw [after]
  rename_i mark
  rw [if_neg mark] at h ⊢
  split at ht
  · rename_i brace
    rw [if_pos brace] at h ⊢
    cases ht
    simp only [Bool.and_eq_true, decide_eq_true_eq] at brace
    rw [tail_closers brace.2, referenceBody_closers (by simpa using h)]
  rename_i brace
  rw [if_neg brace] at h ⊢
  split at ht
  · rename_i quote
    rw [if_pos quote]
    cases ht
    rw [stringBody_closers (by simpa [quote] using h)]
  rename_i quote
  rw [if_neg quote]
  split at ht
  · rename_i number
    cases ht
    rw [number]
    rfl
  rename_i number
  rw [number]
  dsimp only [Option.map_none]
  have part : StartsOutside Text.isNamePart (closers n) := startsOutside_closers (by decide) n
  split at ht
  · cases ht
    rw [if_pos ‹_›, Text.takeWhile_append cs part, Text.dropWhile_append cs part]
  rename_i name
  rw [if_neg name]
  split at ht
  · rename_i symbol
    cases ht
    have stands : text.isPrefixOf (c :: cs) = true := by simpa using List.find?_some symbol
    have short := (List.isPrefixOf_iff_prefix.mp stands).length_le
    rw [← List.cons_append, List.drop_append_of_le_length short]
  -- a character of its own
  grind

/-- A token that runs on is no parenthesis and leaves next to nothing. -/
theorem nextToken_runsOn (h : runsOn c cs = true) (ht : nextToken c cs = (kind, text, rest)) :
    kind ≠ .opening ∧ kind ≠ .closing ∧ rest ∈ scraps := by
  rw [runsOn] at h
  rw [nextToken] at ht
  split at ht
  · rename_i mark
    rw [if_pos mark] at h
    cases ht
    rw [List.isEmpty_iff.mp h]
    exact ⟨by decide, by decide, List.mem_cons_self⟩
  rename_i mark
  rw [if_neg mark] at h
  split at ht
  · rename_i brace
    rw [if_pos brace] at h
    cases ht
    rw [referenceBody_open (by simpa using h)]
    exact ⟨by decide, by decide, List.mem_cons_self⟩
  rename_i brace
  rw [if_neg brace, Bool.and_eq_true, decide_eq_true_eq, Bool.not_eq_true'] at h
  rw [if_pos h.1] at ht
  cases ht
  exact ⟨by decide, by decide, stringBody_open h.2⟩

/-! ### All tokens -/

/-- Two lists of tokens that leave the same parentheses behind one more token. -/
theorem unmatched_congr {ts us : List Token}
    (h : ∀ openings, unmatched openings ts = unmatched openings us) (t : Token)
    (openings : List Nat) : unmatched openings (t :: ts) = unmatched openings (t :: us) := by
  rw [unmatched.eq_def, unmatched.eq_def openings (t :: us)]
  dsimp only
  simp only [h]

/-- Parentheses without a partner are found in one part of the tokens and then in the other. -/
theorem unmatched_append (openings : List Nat) (ts us : List Token) :
    unmatched openings (ts ++ us) =
      let before := unmatched openings ts
      let after := unmatched before.opening.reverse us
      ⟨before.closing ++ after.closing, after.opening⟩ := by
  induction ts generalizing openings with
  | nil => simp [unmatched]
  | cons t ts ih =>
      rw [List.cons_append, unmatched.eq_def, unmatched.eq_def openings (t :: ts)]
      dsimp only
      split
      · exact ih _
      · exact ih _
      · rw [ih]
        rfl
      · exact ih _

/-- In what a string literal without its quote leaves there are no parentheses. -/
theorem unmatched_scraps (h : cs ∈ scraps) (fuel offset : Nat) (openings : List Nat) :
    unmatched openings (tokensWithin fuel offset cs) = ⟨[], openings.reverse⟩ := by
  have none (fuel offset : Nat) : tokensWithin fuel offset [] = [] := by cases fuel <;> rfl
  cases fuel with
  | zero => rfl
  | succ fuel =>
      obtain rfl | rfl : cs = [] ∨ cs = ['\\'] := by simpa [scraps] using h
      · rfl
      · have token : nextToken '\\' [] = (.other, ['\\'], []) := rfl
        rw [tokensWithin_token (by decide) token, none]
        rfl

/-- Behind a token that runs on there is no parenthesis, and it is none itself. -/
theorem unmatched_runsOn (hb : Text.isBlank c = false) (h : runsOn c cs = true)
    (fuel offset : Nat) (openings : List Nat) :
    unmatched openings (tokensWithin (fuel + 1) offset (c :: cs)) = ⟨[], openings.reverse⟩ := by
  obtain ⟨kind, text, rest, ht⟩ : ∃ k t r, nextToken c cs = (k, t, r) := ⟨_, _, _, rfl⟩
  obtain ⟨ho, hc, left⟩ := nextToken_runsOn h ht
  rw [tokensWithin_token hb ht]
  split
  · exact unmatched_scraps left _ _ _
  · rw [unmatched_cons ho hc]
    exact unmatched_scraps left _ _ _

/-- **Closing parentheses behind a text are tokens behind its own**, if it does not end inside
one. -/
theorem tokensWithin_closers (h : runsOnWithin fuel cs = false) (enough : cs.length < fuel)
    (offset n : Nat) : ∃ fuel' offset', n < fuel' ∧
      tokensWithin (fuel + n) offset (cs ++ closers n) =
        tokensWithin fuel offset cs ++ tokensWithin fuel' offset' (closers n) := by
  induction fuel generalizing cs offset with
  | zero => exact absurd enough (Nat.not_lt_zero _)
  | succ fuel ih =>
      rw [Nat.succ_add]
      -- blanks take no fuel, so that they are skipped by an induction of their own
      induction cs generalizing offset with
      | nil => exact ⟨fuel + n + 1, offset, by omega, rfl⟩
      | cons c cs skip =>
          rw [List.length_cons] at enough
          cases hb : Text.isBlank c with
          | true =>
              rw [runsOnWithin_blank hb] at h
              rw [List.cons_append, tokensWithin_blank hb, tokensWithin_blank hb]
              exact skip h (by omega) _
          | false =>
              obtain ⟨kind, text, rest, ht⟩ : ∃ k t r, nextToken c cs = (k, t, r) := ⟨_, _, _, rfl⟩
              rw [runsOnWithin_token hb ht, Bool.or_eq_false_iff] at h
              have shorter := length_le_of_nextToken ht
              obtain ⟨fuel', offset', left, e⟩ := ih h.2 (by omega) (offset + Text.width text)
              refine ⟨fuel', offset', left, ?_⟩
              rw [List.cons_append, tokensWithin_token hb (nextToken_closers h.1 n ht),
                tokensWithin_token hb ht, e]
              split <;> rfl

/-- **Closing parentheses behind a text are no tokens** if it ends inside one. -/
theorem unmatched_closers_of_runsOn (h : runsOnWithin fuel cs = true) (enough : cs.length < fuel)
    (offset n : Nat) (openings : List Nat) :
    unmatched openings (tokensWithin (fuel + n) offset (cs ++ closers n)) =
      unmatched openings (tokensWithin fuel offset cs) := by
  induction fuel generalizing cs offset openings with
  | zero => exact absurd enough (Nat.not_lt_zero _)
  | succ fuel ih =>
      rw [Nat.succ_add]
      induction cs generalizing offset with
      | nil => cases h
      | cons c cs skip =>
          rw [List.length_cons] at enough
          cases hb : Text.isBlank c with
          | true =>
              rw [runsOnWithin_blank hb] at h
              rw [List.cons_append, tokensWithin_blank hb, tokensWithin_blank hb]
              exact skip h (by omega) _
          | false =>
              obtain ⟨kind, text, rest, ht⟩ : ∃ k t r, nextToken c cs = (k, t, r) := ⟨_, _, _, rfl⟩
              rw [runsOnWithin_token hb ht] at h
              rw [List.cons_append]
              cases here : runsOn c cs with
              | true =>
                  have still : runsOn c (cs ++ closers n) = true := by rwa [runsOn_closers]
                  rw [unmatched_runsOn hb still, unmatched_runsOn hb here]
              | false =>
                  rw [here, Bool.false_or] at h
                  have shorter := length_le_of_nextToken ht
                  have behind := ih h (by omega) (offset + Text.width text)
                  rw [tokensWithin_token hb (nextToken_closers here n ht), tokensWithin_token hb ht]
                  split
                  · exact behind openings
                  · exact unmatched_congr behind _ openings

/-- The parentheses that are left when some are put behind a text. -/
theorem unmatched_tokens_closers (text : List Char) (openings : List Nat)
    (h : unmatched [] (tokens text) = ⟨[], openings⟩) :
    unmatched [] (tokens (text ++ closers openings.length)) =
      if endsInside text then ⟨[], openings⟩ else ⟨[], []⟩ := by
  have enough := Nat.lt_succ_self text.length
  have length : (text ++ closers openings.length).length + 1 =
      text.length + 1 + openings.length := by
    rw [List.length_append, closers, List.length_replicate, Nat.add_right_comm]
  rw [tokens, length]
  cases e : endsInside text with
  | true => rw [unmatched_closers_of_runsOn e enough, if_pos rfl, ← h, tokens]
  | false =>
      obtain ⟨fuel, offset, left, whole⟩ := tokensWithin_closers e enough 0 openings.length
      have partners : unmatched openings.reverse (tokensWithin fuel offset (closers openings.length)) =
          ⟨[], []⟩ :=
        (closes_closers _).unmatched_tokensWithin (by rwa [closers, List.length_replicate])
          List.length_reverse
      rw [tokens] at h
      rw [whole, unmatched_append, h]
      dsimp only
      rw [partners]
      rfl

/-! ### The fix -/

section

variable {s : Settings} {schema : Option Schema} {f : Finding}

/-- The findings about parentheses are those of one part of the linter. -/
theorem mem_lint_parens {text : String} :
    f ∈ lint s schema text ∧ f.check = .unbalancedParens ↔
      s.isEnabled .unbalancedParens = true ∧ f ∈ checkParens text.toList (tokens text.toList) := by
  have perm := (@perm_lint_filter s schema text .unbalancedParens).mem_iff (a := f)
  rw [List.mem_filter, decide_eq_true_eq, filter_findings_parens] at perm
  rw [perm]
  split <;> simp [*]

/-- There is nothing to report about parentheses just if each has a partner. -/
theorem checkParens_eq_nil_iff {ts : List Token} :
    checkParens text ts = [] ↔ unmatched [] ts = ⟨[], []⟩ := by
  rw [checkParens]
  obtain ⟨closing, opening⟩ := unmatched [] ts
  cases opening <;> simp

/-- A fix that puts something behind the text. -/
theorem applyFixes_behind {text : String} {fix : Fix} {more : String} (hf : f.fix = some fix)
    (he : fix.edit = ⟨Text.width text.toList, Text.width text.toList, more⟩) :
    applyFixes text [f] = String.ofList (text.toList ++ more.toList) := by
  have whole := Text.isBoundary_append text.toList []
  have front := Text.takeBytes_append text.toList []
  have behind := Text.dropBytes_append text.toList []
  have none : Text.dropBytes text.toList 0 = text.toList := Text.dropBytes_append [] _
  rw [List.append_nil] at whole front behind
  have edits : orderedEdits text.toList [f] = [fix.edit] := by
    simp [orderedEdits, hf, he, Edit.fits, sortStable, insertSorted]
  rw [applyFixes, madeEdits, edits, he]
  simp [selectEdits, Edit.onBoundaries, whole, replaceFrom, none, front, behind]

/-- Where each finding about parentheses has a fix, the only one puts the missing ones behind the
text. -/
theorem exists_closers {ts : List Token} (hf : f ∈ checkParens text ts)
    (matched : ∀ g ∈ checkParens text ts, g.fix ≠ none) : ∃ openings fix,
      unmatched [] ts = ⟨[], openings⟩ ∧ openings ≠ [] ∧ f.fix = some fix ∧
      fix.edit = ⟨Text.width text, Text.width text, String.ofList (closers openings.length)⟩ := by
  obtain ⟨⟨closing, openings⟩, e⟩ : ∃ u, unmatched [] ts = u := ⟨_, rfl⟩
  rw [checkParens, e] at hf matched
  rw [e]
  cases closing with
  | cons offset closing =>
      -- a closing parenthesis without a partner cannot be mended
      refine absurd rfl (matched (.of .unbalancedParens (Text.locate text offset)
        "')' has no matching '('" none) ?_)
      cases openings <;> simp
  | nil =>
      cases openings with
      | nil => cases hf
      | cons first openings =>
          obtain rfl := List.mem_singleton.mp hf
          exact ⟨first :: openings, _, rfl, List.cons_ne_nil _ _, rfl, rfl⟩

/-- **The fix of unclosed parentheses leaves none to report just if the text does not end inside a
comment, a string literal or a field reference**, whatever else is wrong with the text, if no
closing parenthesis is without a partner. -/
theorem lint_closed_iff {text : String} (hf : f ∈ lint s schema text)
    (hc : f.check = .unbalancedParens)
    (matched : ∀ g ∈ lint s schema text, g.check = .unbalancedParens → g.fix ≠ none) :
    (∀ g ∈ lint s schema (applyFixes text [f]), g.check ≠ .unbalancedParens) ↔
      endsInside text.toList = false := by
  obtain ⟨enabled, found⟩ := mem_lint_parens.mp ⟨hf, hc⟩
  obtain ⟨openings, fix, left, missing, hfix, edit⟩ := exists_closers found fun g hg =>
    have wanted := mem_lint_parens.mpr ⟨enabled, hg⟩
    matched g wanted.1 wanted.2
  have fixed := applyFixes_behind hfix edit
  rw [String.toList_ofList] at fixed
  have none : (∀ g ∈ lint s schema (applyFixes text [f]), g.check ≠ .unbalancedParens) ↔
      checkParens (text.toList ++ closers openings.length)
        (tokens (text.toList ++ closers openings.length)) = [] := by
    rw [List.eq_nil_iff_forall_not_mem]
    have reported := @mem_lint_parens s schema
    refine forall_congr' fun g => ?_
    rw [fixed, ← not_and, reported, String.toList_ofList, not_and]
    exact ⟨fun h => h enabled, fun h _ => h⟩
  rw [none, checkParens_eq_nil_iff, unmatched_tokens_closers _ _ left]
  cases endsInside text.toList <;> simp [missing]

/-- A parenthesis in a comment is no partner; the comment ends before the text does. -/
theorem lint_closed_nested :
    let text := "(a == 1 # (\nAND (b == \"(\""
    let found := lint .standard none text
    ∃ f ∈ found, f.check = .unbalancedParens ∧
      (∀ g ∈ found, g.check = .unbalancedParens → g.fix ≠ none) ∧
      endsInside text.toList = false ∧
      applyFixes text [f] = "(a == 1 # (\nAND (b == \"(\"))" ∧
      ∀ g ∈ lint .standard none (applyFixes text [f]), g.check ≠ .unbalancedParens := by
  obtain ⟨f, hf, hc, fixed⟩ : ∃ f ∈ lint .standard none "(a == 1 # (\nAND (b == \"(\"",
      f.check = .unbalancedParens ∧ applyFixes "(a == 1 # (\nAND (b == \"(\"" [f] =
        "(a == 1 # (\nAND (b == \"(\"))" := by decide +kernel
  have matched : ∀ g ∈ lint .standard none "(a == 1 # (\nAND (b == \"(\"",
      g.check = .unbalancedParens → g.fix ≠ none := by decide +kernel
  have outside : endsInside "(a == 1 # (\nAND (b == \"(\"".toList = false := by decide +kernel
  exact ⟨f, hf, hc, matched, outside, fixed, (lint_closed_iff hf hc matched).mpr outside⟩

/-- Behind a comment on the last line the missing parenthesis is part of the comment. -/
theorem lint_closed_comment :
    let text := "(a == 1 # x"
    let found := lint .standard none text
    (∃ f ∈ found, f.check = .unbalancedParens) ∧
      ∀ f ∈ found, f.check = .unbalancedParens → f.fix ≠ none ∧
        ∃ g ∈ lint .standard none (applyFixes text [f]), g.check = .unbalancedParens := by
  decide +kernel

end

end Rulebook.Lint
