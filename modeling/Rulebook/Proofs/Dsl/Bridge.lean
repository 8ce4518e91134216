import Rulebook.Proofs.Dsl.Keywords
import Rulebook.Proofs.Dsl.Tracks

/-!
# Rulebook — Proofs — Dsl — Bridge

Two texts whose lexemes go together one by one, whatever blanks and comments stand between them, up
to the place where every parenthesis is closed and the first text ends; the second one may go on
there (`Bridge.Aligned`).  A lexeme of the second text is that of the first, or a keyword in other
letters where no comparison comes next.  At one place, the *gate*, a pair of `NOT` of the first text
may be missing from the second one, if what stands behind the pair can start an operand.  Right
behind an opening parenthesis the first `NOT` may be the head of a group, so that the gate is there
only if no group with several members is read (`Headless`).

Every reader of words and punctuation on the second text tracks that on the first.  At the gate the
readers that want anything else than an operand fail, or read the first `NOT` as a name and stand
before the second one, which leads nowhere (`Bridge.Dead`).
-/

namespace Rulebook.Dsl

open Grammar

/-- How a second text may differ from a first one. -/
structure Bridge where
  /-- The words that other words may stand for. -/
  respells : List Char → List Char → Prop
  /-- Such words are one keyword, in other letters. -/
  same_keyword : ∀ {w w' : List Char}, respells w w' →
    ∃ op, Connective.ofKeyword? w = some op ∧ Connective.ofKeyword? w' = some op
  /-- Whether a pair of `NOT` may be missing. -/
  gated : Prop
  /-- Whether the texts may end in front of that place, and whether they may behind it. -/
  ends : Bool → Prop
  /-- What the second text goes on with where the first one ends. -/
  tail : List Char

/-- Behind an opening parenthesis the first text is read as an expression, be it as a group of one
member that its head belongs to, and the second one starts with no keyword. -/
structure Headless (cs ds : List Char) : Prop where
  alone : ∀ {k : Nat} {r : Rule} {rest : List Char},
    group (levelBelow k) (levelBelow (k - 1)) cs = .ok r rest →
      expression (levelBelow k) cs = .ok r rest
  plain : Plain (skipTrivia ds)

/-- Blanks and comments do not matter to what is read without a head. -/
theorem Headless.congr {cs ds cs' ds' : List Char} (h : Headless cs ds)
    (hc : skipTrivia cs' = skipTrivia cs) (hd : skipTrivia ds' = skipTrivia ds) :
    Headless cs' ds' where
  alone hg := by
    rw [← group_skipTrivia, hc, group_skipTrivia] at hg
    exact expression_eq_ok_congr hc (h.alone hg)
  plain := hd ▸ h.plain

namespace Bridge

variable (B : Bridge)

/-- The second lexeme stands for the first one, which `rest` follows. -/
inductive Faces (rest : List Char) : Lexeme → Lexeme → Prop where
  | same (l : Lexeme) : Faces rest l l
  | respelt {w w' : List Char} (h : B.respells w w')
      (hc : comparison.Refuses (skipTrivia rest)) : Faces rest (.word w) (.word w')

/-- The lexemes of the texts go together.  The first text has the closing parentheses for `n` open
ones and a partner for each of its own.  Both texts may stand right behind an opening parenthesis
(`inside`), and they may have passed the gate. -/
inductive Aligned : (inside passed : Bool) → Nat → List Char → List Char → Prop where
  | finish {inside i : Bool} {cs ds : List Char} (hi : B.ends i) (hc : skipTrivia cs = [])
      (hd : skipTrivia ds = B.tail) : Aligned inside i 0 cs ds
  | lexeme {inside i : Bool} {n m : Nat} {l l' : Lexeme} {cs ds cs' ds' : List Char}
      (hc : skipTrivia cs = l.text ++ cs') (hd : skipTrivia ds = l'.text ++ ds')
      (sc : l.Stands cs') (sd : l'.Stands ds') (hf : B.Faces cs' l l')
      (hn : n + l.opened = m + l.closed) (t : Aligned (l.opened == 1) i m cs' ds') :
      Aligned inside i n cs ds
  | gate {inside : Bool} {n : Nat} {cs ds mid b : List Char} (hg : B.gated)
      (hi : inside = true → Headless cs ds) (first : Negates cs mid) (second : Negates mid b)
      (t : StartsOperand b → Aligned false true n b ds) : Aligned inside false n cs ds

/-- Both texts start with lexemes that go together. -/
inductive Ahead (i : Bool) (n : Nat) : List Char → List Char → Prop where
  | intro {m : Nat} {l l' : Lexeme} {cs ds : List Char} (sc : l.Stands cs) (sd : l'.Stands ds)
      (hf : B.Faces cs l l') (hn : n + l.opened = m + l.closed)
      (t : B.Aligned (l.opened == 1) i m cs ds) : Ahead i n (l.text ++ cs) (l'.text ++ ds)

/-- Both texts start with lexemes that go together, after blanks and comments. -/
def Facing (i : Bool) (n : Nat) (cs ds : List Char) : Prop :=
  B.Ahead i n (skipTrivia cs) (skipTrivia ds)

/-- The first text ends. -/
def Ended (i : Bool) (n : Nat) (cs ds : List Char) : Prop :=
  n = 0 ∧ B.ends i ∧ skipTrivia cs = [] ∧ skipTrivia ds = B.tail

/-- The first text starts with a pair of `NOT` that is missing from the second one. -/
def AtGate (i : Bool) (n : Nat) (cs ds : List Char) : Prop :=
  i = false ∧ B.gated ∧ ∃ mid b, Negates cs mid ∧ Negates mid b ∧
    (StartsOperand b → B.Aligned false true n b ds)

/-- The texts go together, and there is no gate here. -/
def Settled (i : Bool) (n : Nat) (cs ds : List Char) : Prop := B.Facing i n cs ds ∨ B.Ended i n cs ds

/-- Something comes next, be it at the gate. -/
def Begins (i : Bool) (n : Nat) (cs ds : List Char) : Prop := B.Facing i n cs ds ∨ B.AtGate i n cs ds

/-- A place where a `NOT` of the pair comes next. -/
def Dead (cs : List Char) : Prop := B.gated ∧ ∃ mid, Negates cs mid

variable {B} {inside i : Bool} {n : Nat} {cs ds : List Char}

/-! ### What comes next -/

theorem Ahead.facing (h : B.Ahead i n cs ds) : B.Facing i n cs ds := by
  cases h with
  | intro sc sd hf hn t =>
      rw [Facing, sc.skipTrivia, sd.skipTrivia]
      exact .intro sc sd hf hn t

theorem Ahead.exists_cons (h : B.Ahead i n cs ds) : (∃ c t, cs = c :: t) ∧ ∃ c t, ds = c :: t := by
  cases h with
  | intro sc sd hf hn t =>
      obtain ⟨c, u, e, -⟩ := sc.exists_cons
      obtain ⟨d, v, e', -⟩ := sd.exists_cons
      exact ⟨⟨c, _, by rw [e, List.cons_append]⟩, d, _, by rw [e', List.cons_append]⟩

theorem Facing.ne_nil (h : B.Facing i n cs ds) : skipTrivia cs ≠ [] := by
  obtain ⟨⟨c, t, e⟩, -⟩ := h.exists_cons
  exact e ▸ List.cons_ne_nil c t

/-- Texts that face one another are aligned, wherever they stand. -/
theorem Facing.aligned (h : B.Facing i n cs ds) : B.Aligned inside i n cs ds := by
  rw [Facing] at h
  generalize hc : skipTrivia cs = a at h
  generalize hd : skipTrivia ds = b at h
  cases h with
  | intro sc sd hf hn t => exact .lexeme hc hd sc sd hf hn t

/-- A gate is a place where a `NOT` of the pair comes next. -/
theorem AtGate.dead (h : B.AtGate i n cs ds) : B.Dead cs := by
  obtain ⟨-, hg, mid, b, first, -⟩ := h
  exact ⟨hg, mid, first⟩

/-- Aligned texts face one another, or the first one ends, or they are at the gate. -/
theorem Aligned.cases (h : B.Aligned inside i n cs ds) :
    B.Facing i n cs ds ∨ B.Ended i n cs ds ∨
      (inside = true → Headless cs ds) ∧ B.AtGate i n cs ds := by
  cases h with
  | finish hi hc hd => exact .inr (.inl ⟨rfl, hi, hc, hd⟩)
  | lexeme hc hd sc sd hf hn t =>
      left
      rw [Facing, hc, hd]
      exact .intro sc sd hf hn t
  | gate hg hi first second t => exact .inr (.inr ⟨hi, rfl, hg, _, _, first, second, t⟩)

/-- Where no `NOT` of the pair comes next, aligned texts are settled. -/
theorem Aligned.settled (h : B.Aligned inside i n cs ds) : B.Settled i n cs ds ∨ B.Dead cs := by
  obtain h | h | ⟨-, h⟩ := h.cases
  · exact .inl (.inl h)
  · exact .inl (.inr h)
  · exact .inr h.dead

theorem Settled.aligned (h : B.Settled i n cs ds) : B.Aligned inside i n cs ds := by
  obtain h | ⟨rfl, hi, hc, hd⟩ := h
  · exact h.aligned
  · exact .finish hi hc hd

/-- Where a parenthesis is open the texts go on. -/
theorem Settled.facing (h : B.Settled i (n + 1) cs ds) : B.Facing i (n + 1) cs ds := by
  obtain h | ⟨e, -⟩ := h
  · exact h
  · cases e

/-- Inside of parentheses something comes next. -/
theorem Aligned.begins (h : B.Aligned inside i (n + 1) cs ds) : B.Begins i (n + 1) cs ds := by
  obtain h | ⟨e, -⟩ | ⟨-, h⟩ := h.cases
  · exact .inl h
  · cases e
  · exact .inr h

/-- Behind an opening parenthesis the gate is no head of a group. -/
theorem Aligned.facing_or_headless (h : B.Aligned true i (n + 1) cs ds) :
    B.Facing i (n + 1) cs ds ∨ Headless cs ds ∧ B.AtGate i (n + 1) cs ds := by
  obtain h | ⟨e, -⟩ | ⟨hi, h⟩ := h.cases
  · exact .inl h
  · cases e
  · exact .inr ⟨hi rfl, h⟩

/-- Where the first text ends, the second one goes on with its tail. -/
theorem Settled.tail_of_nil (h : B.Settled i n cs ds) (hc : skipTrivia cs = []) :
    B.ends i ∧ skipTrivia ds = B.tail := by
  obtain h | ⟨-, hi, -, hd⟩ := h
  · exact absurd hc h.ne_nil
  · exact ⟨hi, hd⟩

/-- What is aligned right behind an opening parenthesis is so elsewhere. -/
theorem Aligned.outside (h : B.Aligned true i n cs ds) : B.Aligned false i n cs ds := by
  obtain h | h | ⟨-, rfl, hg, mid, b, first, second, t⟩ := h.cases
  · exact h.aligned
  · exact Settled.aligned (.inr h)
  · exact .gate hg nofun first second t

/-- What goes together does so whatever is skipped first. -/
theorem Aligned.congr (h : B.Aligned inside i n cs ds) {cs' ds' : List Char}
    (hc : skipTrivia cs' = skipTrivia cs) (hd : skipTrivia ds' = skipTrivia ds) :
    B.Aligned inside i n cs' ds' := by
  induction h generalizing cs' ds' with
  | finish hi ec ed => exact .finish hi (hc.trans ec) (hd.trans ed)
  | lexeme ec ed sc sd hf hn t ih => exact .lexeme (hc.trans ec) (hd.trans ed) sc sd hf hn t
  | gate hg hi first second t ih =>
      exact .gate hg (fun e => (hi e).congr hc hd) (first.congr hc) second fun hb => ih hb rfl hd

theorem Begins.skip (h : B.Begins i n cs ds) : B.Begins i n (skipTrivia cs) (skipTrivia ds) := by
  obtain h | ⟨e, hg, mid, b, first, second, t⟩ := h
  · exact .inl (Ahead.facing h)
  · exact .inr ⟨e, hg, mid, b, first.congr (skipTrivia_skipTrivia cs), second, fun hb =>
      (t hb).congr rfl (skipTrivia_skipTrivia ds)⟩

/-! ### Readers that go by lexemes -/

variable {α : Type} {deep : Prop} {D : List Char → Prop} {p : Grammar α} {f : String → α}

/-- A reader that has a verdict on a lexeme tracks itself where the same lexeme is in front. -/
theorem tracks_verdict {l : Lexeme} {m : Nat} (v : Verdict p l) (sc : l.Stands cs)
    (sd : l.Stands ds) (hn : n + l.opened = m + l.closed)
    (t : B.Aligned (l.opened == 1) i m cs ds) :
    (p (l.text ++ cs)).Tracks deep D (Same (B.Aligned false i n)) (p (l.text ++ ds)) := by
  cases v with
  | reads a ho hc h =>
      obtain rfl : n = m := by rwa [ho, hc] at hn
      rw [ho] at t
      exact tracks_of_ok (h cs sc) (h ds sd) ⟨rfl, t⟩
  | refuses h => exact tracks_of_refuses (h cs sc) (h ds sd)
  | stops h => exact .doomed (doomed_of_yields (h cs sc))

/-- A reader that goes by lexemes, and not by the letters of keywords, reads the same on both
texts. -/
theorem tracks_lexical (h : Lexical p) (hu : Uniform p) :
    Tracks deep D (B.Ahead i n) (Same (B.Aligned false i n)) p p := by
  intro cs ds hr
  cases hr with
  | @intro m l l' cs ds sc sd hf hn t =>
      cases hf with
      | same => exact tracks_verdict (h l) sc sd hn t
      | respelt hw hc =>
          obtain ⟨op, kw, kw'⟩ := B.same_keyword hw
          obtain rfl : n = _ := hn
          obtain ⟨a, reads⟩ | refuses := hu op
          · exact tracks_of_ok (reads _ _ kw sc.2) (reads _ _ kw' sd.2) ⟨rfl, t⟩
          · exact tracks_of_refuses (refuses _ _ kw sc.2) (refuses _ _ kw' sd.2)

variable (B) in
/-- What is made of a name in both texts. -/
def Spells (f : String → α) (a b : α) : Prop :=
  a = b ∨ ∃ w w', B.respells w w' ∧ a = f (String.ofList w) ∧ b = f (String.ofList w')

/-- A reader of names reads names that go together, and where they differ no comparison follows. -/
theorem tracks_naming (h : Naming f p) :
    Tracks deep D (B.Ahead i n) (fun a b cs ds =>
      (B.Spells f a b ∧ (a ≠ b → comparison.Refuses (skipTrivia cs))) ∧ B.Aligned false i n cs ds)
      p p := by
  intro cs ds hr
  cases hr with
  | @intro m l l' cs ds sc sd hf hn t =>
      cases hf with
      | same =>
          refine (tracks_verdict (h.lexical l) sc sd hn t).mono (fun _ => id) ?_
          rintro a _ cs ds ⟨rfl, t⟩
          exact ⟨⟨.inl rfl, absurd rfl⟩, t⟩
      | respelt hw hc =>
          obtain ⟨op, kw, kw'⟩ := B.same_keyword hw
          obtain rfl : n = _ := hn
          exact tracks_of_ok (h.words kw sc.2) (h.words kw' sd.2)
            ⟨⟨.inr ⟨_, _, hw, rfl, rfl⟩, fun _ => hc⟩, t⟩

/-- Blanks and comments are skipped on both sides. -/
theorem tracks_trivia : Tracks deep D (B.Facing i n) (Same (B.Ahead i n)) trivia trivia :=
  fun _ _ h => .ok ⟨rfl, h⟩

theorem tracks_begins : Tracks deep D (B.Begins i n) (Same (B.Begins i n)) trivia trivia :=
  fun _ _ h => .ok ⟨rfl, h.skip⟩

/-- Where something comes next names are read, at the gate the first `NOT`. -/
theorem tracks_name (h : Naming f p) : Tracks deep B.Dead (B.Begins i n)
    (fun a b cs ds => B.Spells f a b ∧ B.Settled i n cs ds) (do trivia; p) (do trivia; p) := by
  rintro cs ds (hf | ⟨-, hg, mid, b, first, second, -⟩)
  · refine (tracks_trivia.step fun _ => (tracks_naming h).settle (D := Never) (fun _ => False.elim) ?_)
      cs ds hf
    rintro a b cs ds ⟨⟨spells, -⟩, t⟩
    exact t.settled.imp_left fun t => ⟨spells, t⟩
  · obtain ⟨a, e⟩ := first.naming h
    rw [trivia_bind]
    exact .doomed (doomed_of_ok e ⟨hg, b, second⟩)

/-! ### What has to follow -/

/-- The reader fails for good at keywords and at the end, and goes by lexemes elsewhere, if it does
not come to one of the places `D`. -/
structure Needed (D : List Char → Prop) (p : Grammar α) : Prop where
  reads : ∀ l, Verdict p l ∨ ∀ rest, l.Stands rest → (p (l.text ++ rest)).Doomed D
  words : ∀ {op : Connective} {w rest : List Char}, Connective.ofKeyword? w = some op → Ends rest →
    (p (w ++ rest)).Yields none []
  ends : (p []).Yields none []

theorem Needed.marked (h : Needed D p) (m : Mark) : Needed D (Grammar.marked m p) where
  reads l := (h.reads l).imp (·.marked m) fun doomed rest hr => doomed_marked (doomed rest hr) m
  words hw hr := marked_yields (h.words hw hr) m
  ends := marked_yields h.ends m

/-- What goes by lexemes and reads no keyword fails for good at one, once it is committed to. -/
theorem needed_of_lexical (h : Lexical p) (hw : Wordless p) : Needed D (commit p) where
  reads l := .inl (h l).commit
  words hk hr := (hw.words hk hr).fails.commit []
  ends := hw.ends.fails.commit []

theorem needed_of_halting (h : Halting p) (hw : Wordless p) : Needed Midway (commit p) where
  reads l := by
    refine (h l).imp (·.commit) ?_
    rintro ⟨a, halts⟩ rest hr
    obtain ⟨t, e, ht⟩ := halts rest hr
    exact doomed_of_ok (commit_ok e) ht
  words hk hr := (hw.words hk hr).fails.commit []
  ends := hw.ends.fails.commit []

/-- What is needed tracks itself between aligned texts. -/
theorem tracks_needed (h : Needed D p) : Tracks deep D (B.Aligned false i n)
    (Same (B.Aligned false i n)) (do trivia; p) (do trivia; p) := by
  intro cs ds hr
  rw [trivia_bind, trivia_bind]
  obtain hf | ⟨-, -, hc, -⟩ | ⟨-, -, hg, mid, b, ⟨w, e, hw, hm⟩, -⟩ := hr.cases
  · rw [Facing] at hf
    generalize skipTrivia cs = a at hf
    generalize skipTrivia ds = b at hf
    cases hf with
    | @intro m l l' cs ds sc sd hf hn t =>
        cases hf with
        | same =>
            obtain v | doomed := h.reads l
            · exact tracks_verdict v sc sd hn t
            · exact .doomed (doomed _ sc)
        | respelt hw hc =>
            obtain ⟨op, kw, -⟩ := B.same_keyword hw
            exact .doomed (doomed_of_yields (h.words kw sc.2))
  · exact .doomed (doomed_of_yields (hc ▸ h.ends))
  · exact .doomed (doomed_of_yields (e ▸ h.words hw hm))

/-- What has to follow, and what is read behind it. -/
theorem tracks_needed_bind {β : Type} {E : List Char → Prop} {T : β → β → List Char → List Char → Prop}
    {g g' : α → Grammar β} (h : Needed D p)
    (hg : ∀ a, Tracks deep E (B.Aligned false i n) T (g a) (g' a)) (hD : ∀ a, Halts D E (g a)) :
    Tracks deep E (B.Aligned false i n) T (do trivia; let a ← p; g a)
      (do trivia; let a ← p; g' a) :=
  (tracks_needed h).bindSame hg hD

/-- An argument tracks itself if it goes by lexemes and is no keyword. -/
theorem tracks_argument (h : Lexical p) (hw : Wordless p) :
    Tracks deep D (B.Aligned false i n) (Same (B.Aligned false i n)) (argument p) (argument p) :=
  tracks_needed (needed_of_lexical h hw)

theorem tracks_haltingArgument (h : Halting p) (hw : Wordless p) :
    Tracks deep Midway (B.Aligned false i n) (Same (B.Aligned false i n)) (argument p)
      (argument p) :=
  tracks_needed (needed_of_halting h hw)

/-! ### Punctuation -/

/-- A comma tracks itself. -/
theorem tracks_comma : Tracks deep D (B.Aligned false i n) (Same (B.Aligned false i n))
    (punctuation ',') (punctuation ',') :=
  tracks_needed ((needed_of_lexical (lexical_char (by decide)) (wordless_char (by decide))).marked _)

theorem tracks_bracket : Tracks deep D (B.Aligned false i n) (Same (B.Aligned false i n))
    (punctuation ']') (punctuation ']') :=
  tracks_needed ((needed_of_lexical (lexical_char (by decide)) (wordless_char (by decide))).marked _)

/-- A comma between members tracks itself. -/
theorem tracks_separator : Tracks deep D (B.Settled i (n + 1)) (Same (B.Aligned false i (n + 1)))
    (spaced ',') (spaced ',') :=
  (tracks_trivia.step fun _ => tracks_lexical (lexical_char (by decide))
    (wordless_char (by decide)).uniform).starting fun _ _ => Settled.facing

/-- A parenthesis is a lexeme of its own. -/
theorem tracks_parenthesis {c : Char} (hc : punctuationChars.contains c = true)
    (hs : Text.isNameStart c = false) {m : Nat} {R : List Char → List Char → Prop}
    (h : n + (Lexeme.char c).opened = m + (Lexeme.char c).closed →
      ∀ cs ds, B.Aligned ((Lexeme.char c).opened == 1) i m cs ds → R cs ds)
    (hm : ∀ k, n + (Lexeme.char c).opened = k + (Lexeme.char c).closed → k = m) :
    Tracks deep D (B.Ahead i n) (Same R) (char c) (char c) := by
  intro cs ds hr
  cases hr with
  | @intro m l l' cs ds sc sd hf hn t =>
      cases hf with
      | same =>
          by_cases hl : l = .char c
          · subst hl
            obtain rfl := hm _ hn
            exact tracks_of_ok (char_ok c _) (char_ok c _) ⟨rfl, h hn _ _ t⟩
          · exact tracks_of_refuses (refuses_char_lexeme hc hl sc) (refuses_char_lexeme hc hl sd)
      | respelt hw _ =>
          obtain ⟨op, kw, kw'⟩ := B.same_keyword hw
          exact tracks_of_refuses ((wordless_char hs).words kw sc.2)
            ((wordless_char hs).words kw' sd.2)

/-- An opening parenthesis leads both sides inside of it. -/
theorem tracks_opening :
    Tracks deep D (B.Ahead i n) (Same (B.Aligned true i (n + 1))) (char '(') (char '(') :=
  tracks_parenthesis (by decide) (by decide) (fun _ _ _ => id) fun _ h => h.symm

/-- A closing parenthesis leads both sides out of it. -/
theorem tracks_closing :
    Tracks deep D (B.Ahead i (n + 1)) (Same (B.Aligned false i n)) (char ')') (char ')') :=
  tracks_parenthesis (by decide) (by decide) (fun _ _ _ => id) fun _ h => (Nat.succ.inj h).symm

theorem tracks_close : Tracks deep D (B.Aligned false i (n + 1)) (Same (B.Aligned false i n))
    (punctuation ')') (punctuation ')') := by
  intro cs ds hr
  obtain hf | ⟨-, -, mid, b, first, -⟩ := hr.begins
  · exact ((tracks_trivia.step fun _ => tracks_closing).commit.expectingChar ')') cs ds hf
  · have refuses : (spaced ')').Refuses cs := first.refuses (wordless_char (by decide))
    exact .doomed (doomed_marked (doomed_commit_of_fails refuses.fails) _)

/-! ### Places that lead nowhere -/

/-- Where a `NOT` of the pair comes next, other characters are refused. -/
theorem Dead.refuses (h : B.Dead cs) {c : Char} (hc : Text.isNameStart c = false) :
    (spaced c).Refuses cs := by
  obtain ⟨-, mid, first⟩ := h
  exact first.refuses (wordless_char hc)

/-- What is needed fails for good where a `NOT` of the pair comes next. -/
theorem Needed.halts_bind {β : Type} {E : List Char → Prop} (h : Needed D p) (g : α → Grammar β) :
    Halts B.Dead E (do trivia; let a ← p; g a) := by
  rintro cs ⟨-, mid, w, e, hw, hm⟩
  rw [trivia_bind]
  exact doomed_bind_of_yields (e ▸ h.words hw hm)

theorem halts_punctuation {E : List Char → Prop} {c : Char} (hc : Text.isNameStart c = false) :
    Halts B.Dead E (punctuation c) := fun _ h =>
  doomed_marked (doomed_commit_of_fails (h.refuses hc).fails) _

/-- Midway in a lexeme other punctuation fails for good. -/
theorem halts_midway {E : List Char → Prop} {c : Char} (hc : ['.', '='].contains c = false) :
    Halts Midway E (punctuation c) := fun _ h => doomed_of_yields (midway_punctuation h hc [])

end Bridge

end Rulebook.Dsl
