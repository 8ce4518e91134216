import Rulebook.Proofs.Dsl.Grammar

/-!
# Rulebook — Proofs — Dsl — Tracks

Two readers on two texts, step by step.  One *tracks* the other from texts that are related in one
way to values and texts that are related in another (`Tracks`): it reads a value where the other one
reads a value, and it refuses where the other one refuses, so that both turn to the same
alternatives.  Nothing is asked of the second reader where the first is *doomed*: it has failed for
good, or it stands where it is going to (`Outcome.Doomed`).

The second reader may have fewer levels of nesting left and run out of them, which is a failure for
good of its own kind (`Outcome.TooDeep`); `deep` says whether that is allowed.
-/

namespace Rulebook.Dsl

variable {α β : Type}

/-- The reader has run out of levels. -/
def Outcome.TooDeep (y : Outcome α) : Prop :=
  ∃ f rest, y = .fail f rest ∧ f.committed = true ∧ Fault.label? f.marks = some "nesting depth"

/-- The reader has failed for good, or it stands at one of the places `D` that lead nowhere. -/
def Outcome.Doomed (D : List Char → Prop) : Outcome α → Prop
  | .ok _ rest => D rest
  | .fail f _ => f.committed = true

/-- The second outcome tracks the first; `S` relates the values and the texts that are left. -/
inductive Outcome.Tracks (deep : Prop) (D : List Char → Prop)
    (S : α → α → List Char → List Char → Prop) : Outcome α → Outcome α → Prop where
  | ok {a b : α} {cs ds : List Char} (h : S a b cs ds) : Tracks deep D S (.ok a cs) (.ok b ds)
  | refused {f g : Fault} {cs ds : List Char} (hf : f.committed = false)
      (hg : g.committed = false) : Tracks deep D S (.fail f cs) (.fail g ds)
  | doomed {x y : Outcome α} (h : x.Doomed D) : Tracks deep D S x y
  | tooDeep {x y : Outcome α} (hd : deep) (hy : y.TooDeep) : Tracks deep D S x y

/-- No place leads nowhere. -/
def Never (_ : List Char) : Prop := False

section

variable {deep : Prop} {D D' : List Char → Prop} {S S' : α → α → List Char → List Char → Prop}
  {x y : Outcome α}

/-- An outcome that is doomed stays so if more places lead nowhere. -/
theorem Outcome.Doomed.mono (h : x.Doomed D) (hD : ∀ cs, D cs → D' cs) : x.Doomed D' := by
  cases x with
  | ok a rest => exact hD rest h
  | fail f rest => exact h

/-- An outcome tracked stays so if more places lead nowhere and more is related. -/
theorem Outcome.Tracks.mono (h : x.Tracks deep D S y) (hD : ∀ cs, D cs → D' cs)
    (hS : ∀ a b cs ds, S a b cs ds → S' a b cs ds) : x.Tracks deep D' S' y := by
  cases h with
  | ok h => exact .ok (hS _ _ _ _ h)
  | refused hf hg => exact .refused hf hg
  | doomed h => exact .doomed (h.mono hD)
  | tooDeep hd hy => exact .tooDeep hd hy

/-- What is left may also turn out to lead nowhere. -/
theorem Outcome.Tracks.settle (h : x.Tracks deep D S y) (hD : ∀ cs, D cs → D' cs)
    (hS : ∀ a b cs ds, S a b cs ds → S' a b cs ds ∨ D' cs) : x.Tracks deep D' S' y := by
  cases h with
  | ok h =>
      obtain h | h := hS _ _ _ _ h
      · exact .ok h
      · exact .doomed h
  | refused hf hg => exact .refused hf hg
  | doomed h => exact .doomed (h.mono hD)
  | tooDeep hd hy => exact .tooDeep hd hy

end

/-- The values are the same, and the texts are related. -/
def Same (R : List Char → List Char → Prop) (a b : α) (cs ds : List Char) : Prop := a = b ∧ R cs ds

/-- Lists that are related element by element, each from the stage at which the one before it has
left off. -/
inductive Chained {ι : Type} (P : ι → ι → α → α → Prop) : ι → ι → List α → List α → Prop where
  | nil {i : ι} : Chained P i i [] []
  | cons {i j k : ι} {a b : α} {as bs : List α} (h : P i j a b) (t : Chained P j k as bs) :
      Chained P i k (a :: as) (b :: bs)

/-- The values are related from the stage `i` on, and the texts are those of the stage that they
lead to. -/
def Passes {ι : Type} (P : ι → ι → α → α → Prop) (R : ι → List Char → List Char → Prop) (i : ι)
    (a b : α) (cs ds : List Char) : Prop := ∃ j, P i j a b ∧ R j cs ds

namespace Grammar

variable {deep : Prop} {D D' E : List Char → Prop} {R R' : List Char → List Char → Prop}
  {S S' : α → α → List Char → List Char → Prop} {T : β → β → List Char → List Char → Prop}
  {p q p' q' : Grammar α} {cs ds : List Char}

/-- The second reader tracks the first from texts related by `R`. -/
def Tracks (deep : Prop) (D : List Char → Prop) (R : List Char → List Char → Prop)
    (S : α → α → List Char → List Char → Prop) (p q : Grammar α) : Prop :=
  ∀ cs ds, R cs ds → (p cs).Tracks deep D S (q ds)

/-- From the places `D` the reader fails for good, or it comes to one of the places `E`. -/
def Halts (D E : List Char → Prop) (p : Grammar α) : Prop := ∀ cs, D cs → (p cs).Doomed E

/-! ### Failures go through -/

/-- A fault keeps its label when it is marked further. -/
theorem label?_append {marks : List Mark} {what : String} (h : Fault.label? marks = some what)
    (m : Mark) : Fault.label? (marks ++ [m]) = some what := by
  rw [Fault.label?] at h ⊢
  rw [List.findSome?_append, h]
  rfl

/-- Whoever goes on with a reader has run out of levels if that has. -/
theorem tooDeep_bind (h : (q cs).TooDeep) (f : α → Grammar β) : ((q >>= f) cs).TooDeep := by
  obtain ⟨e, rest, hq, he⟩ := h
  exact ⟨e, rest, bind_fail hq, he⟩

theorem tooDeep_marked (h : (q cs).TooDeep) (m : Mark) : (marked m q cs).TooDeep := by
  obtain ⟨e, rest, hq, he, hl⟩ := h
  exact ⟨⟨e.committed, e.marks ++ [m], e.cause⟩, rest, by rw [marked, hq], he, label?_append hl m⟩

theorem tooDeep_commit (h : (q cs).TooDeep) : (commit q cs).TooDeep := by
  obtain ⟨e, rest, hq, -, hl⟩ := h
  exact ⟨⟨true, e.marks, e.cause⟩, rest, by rw [commit, hq], rfl, hl⟩

theorem tooDeep_orElse (h : (q cs).TooDeep) : ((q <|> q') cs).TooDeep := by
  obtain ⟨e, rest, hq, he, hl⟩ := h
  refine ⟨e, rest, ?_, he, hl⟩
  show orElse q (fun _ => q') cs = _
  simp [orElse, hq, he]

theorem tooDeep_optional (h : (q cs).TooDeep) : (optional q cs).TooDeep := by
  obtain ⟨e, rest, hq, he, hl⟩ := h
  exact ⟨e, rest, by simp [optional, hq, he], he, hl⟩

/-- A doomed reader has read up to a place that leads nowhere, or it has failed for good. -/
theorem doomed_cases (h : (p cs).Doomed D) :
    (∃ a rest, p cs = .ok a rest ∧ D rest) ∨ (p cs).Yields none [] := by
  cases e : p cs with
  | ok a rest =>
      rw [e] at h
      exact .inl ⟨a, rest, rfl, h⟩
  | fail f rest =>
      rw [e] at h
      exact .inr ⟨f, rest, rfl, h⟩

/-- A reader that fails for good is doomed. -/
theorem doomed_of_yields {rest : List Char} (h : (p cs).Yields none rest) : (p cs).Doomed D := by
  obtain ⟨f, t, e, hf⟩ := h
  rw [e]
  exact hf

theorem doomed_of_ok {a : α} {rest : List Char} (h : p cs = .ok a rest) (hd : D rest) :
    (p cs).Doomed D := by
  rw [h]
  exact hd

theorem doomed_bind_of_yields {f : α → Grammar β} {rest : List Char} (h : (p cs).Yields none rest) :
    ((p >>= f) cs).Doomed D :=
  doomed_of_yields (@bind_none_yields _ _ p cs rest [] f h)

/-- What goes on with a doomed reader is doomed, if it halts where that stops. -/
theorem doomed_bind {f : α → Grammar β} (h : (p cs).Doomed D) (hf : ∀ a, Halts D E (f a)) :
    ((p >>= f) cs).Doomed E := by
  obtain ⟨a, rest, e, hd⟩ | stops := doomed_cases h
  · rw [bind_ok e]
    exact hf a rest hd
  · exact doomed_bind_of_yields stops

theorem doomed_marked (h : (p cs).Doomed D) (m : Mark) : (marked m p cs).Doomed D := by
  obtain ⟨a, rest, e, hd⟩ | stops := doomed_cases h
  · exact doomed_of_ok (marked_ok e m) hd
  · exact doomed_of_yields (marked_yields stops m)

theorem doomed_commit (h : (p cs).Doomed D) : (commit p cs).Doomed D := by
  obtain ⟨a, rest, e, hd⟩ | stops := doomed_cases h
  · exact doomed_of_ok (commit_ok e) hd
  · exact doomed_of_yields (commit_yields stops)

/-- The first of two alternatives decides if it is doomed: no other one is tried. -/
theorem doomed_orElse (h : (p cs).Doomed D) : ((p <|> p') cs).Doomed D := by
  obtain ⟨a, rest, e, hd⟩ | stops := doomed_cases h
  · exact doomed_of_ok (orElse_of_ok e) hd
  · exact doomed_of_yields (orElse_yields stops)

/-- What goes on behind an optional part is doomed if the part is. -/
theorem doomed_optional_bind {f : Option α → Grammar β} (h : (p cs).Doomed D)
    (hf : ∀ a, Halts D E (f (some a))) : ((optional p >>= f) cs).Doomed E := by
  obtain ⟨a, rest, e, hd⟩ | stops := doomed_cases h
  · rw [bind_ok (optional_of_ok e)]
    exact hf a rest hd
  · exact doomed_bind_of_yields (optional_yields stops)

/-- What is committed to is doomed where it is refused. -/
theorem doomed_commit_of_fails (h : p.Fails cs) : (commit p cs).Doomed D :=
  doomed_of_yields (h.commit [])

/-! ### Places that lead nowhere -/

namespace Halts

theorem pure (a : α) : Halts D D (Pure.pure a) := fun _ h => h

/-- One reader behind another halts if both do. -/
theorem bind {f : α → Grammar β} (h : Halts D D' p) (hf : ∀ a, Halts D' E (f a)) :
    Halts D E (p >>= f) := fun cs hc => doomed_bind (h cs hc) hf

theorem of_never : Halts Never E p := fun _ h => h.elim

/-- An optional part that is refused everywhere is left out. -/
theorem optional_bind {f : Option α → Grammar β} (h : ∀ cs, D cs → p.Refuses cs)
    (hf : Halts D E (f none)) : Halts D E (Grammar.optional p >>= f) := by
  intro cs hc
  rw [bind_ok (optional_of_refuses (h cs hc))]
  exact hf cs hc

/-- A repetition stops at the places that its reader refuses. -/
theorem many (h : ∀ cs, D cs → p.Refuses cs) : Halts D D (Grammar.many p) := by
  intro cs hc
  exact doomed_of_ok (manyWithin_of_refuses (h cs hc) _) hc

end Halts

/-! ### Combinators -/

/-- The four ways in which one outcome tracks another, of readers that are run. -/
theorem tracks_cases (h : (p cs).Tracks deep D S (q ds)) :
    (∃ a b rest rest', p cs = .ok a rest ∧ q ds = .ok b rest' ∧ S a b rest rest') ∨
      (p.Refuses cs ∧ q.Refuses ds) ∨ (p cs).Doomed D ∨ (deep ∧ (q ds).TooDeep) := by
  generalize hx : p cs = x at h
  generalize hy : q ds = y at h
  cases h with
  | ok h => exact .inl ⟨_, _, _, _, rfl, rfl, h⟩
  | refused hf hg => exact .inr (.inl ⟨⟨_, _, hx, hf⟩, _, _, hy, hg⟩)
  | doomed h => exact .inr (.inr (.inl h))
  | tooDeep hd h => exact .inr (.inr (.inr ⟨hd, h⟩))

/-- Where the first reader reads a value and goes on, the second one reads a related value, or it
runs out of levels. -/
theorem tracks_ok {rest : List Char} {a : α} (h : (p cs).Tracks deep D S (q ds))
    (hp : p cs = .ok a rest) (hd : ¬ D rest) :
    (∃ b rest', q ds = .ok b rest' ∧ S a b rest rest') ∨ (deep ∧ (q ds).TooDeep) := by
  rw [hp] at h
  generalize hy : q ds = y at h
  cases h with
  | ok h => exact .inl ⟨_, _, rfl, h⟩
  | doomed h => exact absurd h hd
  | tooDeep hd h => exact .inr ⟨hd, h⟩

/-- Readers that both refuse track one another. -/
theorem tracks_of_refuses (hp : p.Refuses cs) (hq : q.Refuses ds) :
    (p cs).Tracks deep D S (q ds) := by
  obtain ⟨f, rest, hp, hf⟩ := hp
  obtain ⟨g, rest', hq, hg⟩ := hq
  rw [hp, hq]
  exact .refused hf hg

/-- Readers that read related values track one another. -/
theorem tracks_of_ok {a b : α} {rest rest' : List Char} (hp : p cs = .ok a rest)
    (hq : q ds = .ok b rest') (h : S a b rest rest') : (p cs).Tracks deep D S (q ds) := by
  rw [hp, hq]
  exact .ok h

namespace Tracks

/-- Tracking is kept with less at the start, more places that lead nowhere and more related. -/
theorem mono (h : Tracks deep D R S p q) (hR : ∀ cs ds, R' cs ds → R cs ds)
    (hD : ∀ cs, D cs → D' cs) (hS : ∀ a b cs ds, S a b cs ds → S' a b cs ds) :
    Tracks deep D' R' S' p q := fun cs ds hr => (h cs ds (hR cs ds hr)).mono hD hS

theorem starting (h : Tracks deep D R S p q) (hR : ∀ cs ds, R' cs ds → R cs ds) :
    Tracks deep D R' S p q := h.mono hR (fun _ => id) fun _ _ _ _ => id

theorem into (h : Tracks deep D R S p q) (hS : ∀ a b cs ds, S a b cs ds → S' a b cs ds) :
    Tracks deep D R S' p q := h.mono (fun _ _ => id) (fun _ => id) hS

/-- What is related may be doomed instead. -/
theorem settle (h : Tracks deep D R S p q) (hD : ∀ cs, D cs → D' cs)
    (hS : ∀ a b cs ds, S a b cs ds → S' a b cs ds ∨ D' cs) : Tracks deep D' R S' p q :=
  fun cs ds hr => (h cs ds hr).settle hD hS

/-- Goes on with what is known of the values. -/
theorem given {φ : Prop} (h : φ → Tracks deep D R S p q) :
    Tracks deep D (fun cs ds => φ ∧ R cs ds) S p q := fun cs ds hr => h hr.1 cs ds hr.2

/-- Goes on with a value that is the same. -/
theorem same {a b : β} {f g : β → Grammar α} (h : ∀ a, Tracks deep D R S (f a) (g a)) :
    Tracks deep D (Same R a b) S (f a) (g b) := by
  rintro cs ds ⟨rfl, hr⟩
  exact h a cs ds hr

/-- Goes on at the stage that the values lead to. -/
theorem passes {ι : Type} {P : ι → ι → β → β → Prop} {R : ι → List Char → List Char → Prop}
    {i : ι} {a b : β} (h : ∀ j, P i j a b → Tracks deep D (R j) S p q) :
    Tracks deep D (Passes P R i a b) S p q := fun cs ds ⟨j, hp, hr⟩ => h j hp cs ds hr

theorem pure {a b : α} (h : ∀ cs ds, R cs ds → S a b cs ds) :
    Tracks deep D R S (Pure.pure a) (Pure.pure b) := fun cs ds hr => .ok (h cs ds hr)

/-- One reader behind another tracks if both parts do, and the second part halts where the first is
doomed. -/
theorem bind {f g : α → Grammar β} (h : Tracks deep D R S p q)
    (hf : ∀ a b, Tracks deep E (S a b) T (f a) (g b)) (hD : ∀ a, Halts D E (f a)) :
    Tracks deep E R T (p >>= f) (q >>= g) := by
  intro cs ds hr
  obtain ⟨a, b, t, u, hp, hq, hs⟩ | ⟨hp, hq⟩ | hp | ⟨hd, hq⟩ := tracks_cases (h cs ds hr)
  · rw [bind_ok hp, bind_ok hq]
    exact hf a b t u hs
  · exact tracks_of_refuses (hp.bind f) (hq.bind g)
  · exact .doomed (doomed_bind hp hD)
  · exact .tooDeep hd (tooDeep_bind hq g)

/-- Behind a reader that comes to no place that leads nowhere. -/
theorem andThen {f g : α → Grammar β} (h : Tracks deep Never R S p q)
    (hf : ∀ a b, Tracks deep E (S a b) T (f a) (g b)) : Tracks deep E R T (p >>= f) (q >>= g) :=
  h.bind hf fun _ => .of_never

/-- Behind a value that is the same. -/
theorem bindSame {R' : List Char → List Char → Prop} {f g : α → Grammar β}
    (h : Tracks deep D R (Same R') p q) (hf : ∀ a, Tracks deep E R' T (f a) (g a))
    (hD : ∀ a, Halts D E (f a)) : Tracks deep E R T (p >>= f) (q >>= g) :=
  h.bind (fun _ _ => .same hf) hD

/-- What reads the same value on both sides and cannot be doomed is a step in front of other
readers. -/
theorem step {R' : List Char → List Char → Prop} {f g : α → Grammar β}
    (h : Tracks deep Never R (Same R') p q) (hf : ∀ a, Tracks deep E R' T (f a) (g a)) :
    Tracks deep E R T (p >>= f) (q >>= g) := h.bindSame hf fun _ => .of_never

theorem marked (h : Tracks deep D R S p q) (m : Mark) :
    Tracks deep D R S (Grammar.marked m p) (Grammar.marked m q) := by
  intro cs ds hr
  obtain ⟨a, b, t, u, hp, hq, hs⟩ | ⟨hp, hq⟩ | hp | ⟨hd, hq⟩ := tracks_cases (h cs ds hr)
  · exact tracks_of_ok (marked_ok hp m) (marked_ok hq m) hs
  · exact tracks_of_refuses (hp.marked m) (hq.marked m)
  · exact .doomed (doomed_marked hp m)
  · exact .tooDeep hd (tooDeep_marked hq m)

theorem expecting (h : Tracks deep D R S p q) (what : String) :
    Tracks deep D R S (Grammar.expecting what p) (Grammar.expecting what q) := h.marked _

theorem expectingChar (h : Tracks deep D R S p q) (c : Char) :
    Tracks deep D R S (Grammar.expectingChar c p) (Grammar.expectingChar c q) := h.marked _

/-- Committing to both readers keeps tracking. -/
theorem commit (h : Tracks deep D R S p q) :
    Tracks deep D R S (Grammar.commit p) (Grammar.commit q) := by
  intro cs ds hr
  obtain ⟨a, b, t, u, hp, hq, hs⟩ | ⟨hp, -⟩ | hp | ⟨hd, hq⟩ := tracks_cases (h cs ds hr)
  · exact tracks_of_ok (commit_ok hp) (commit_ok hq) hs
  · exact .doomed (doomed_commit_of_fails hp.fails)
  · exact .doomed (doomed_commit hp)
  · exact .tooDeep hd (tooDeep_commit hq)

/-- Alternatives track one another one by one. -/
theorem orElse (h : Tracks deep D R S p q) (h' : Tracks deep D R S p' q') :
    Tracks deep D R S (p <|> p') (q <|> q') := by
  intro cs ds hr
  obtain ⟨a, b, t, u, hp, hq, hs⟩ | ⟨hp, hq⟩ | hp | ⟨hd, hq⟩ := tracks_cases (h cs ds hr)
  · exact tracks_of_ok (orElse_of_ok hp) (orElse_of_ok hq) hs
  · rw [orElse_of_refuses hp, orElse_of_refuses hq]
    exact h' cs ds hr
  · exact .doomed (doomed_orElse hp)
  · exact .tooDeep hd (tooDeep_orElse hq)

/-- After an optional part, the texts are related in one way if it was there and in another if
not. -/
theorem optional_bind {f g : Option α → Grammar β} (h : Tracks deep D R S p q)
    (there : ∀ a b, Tracks deep E (S a b) T (f (some a)) (g (some b)))
    (missing : Tracks deep E R T (f none) (g none)) (hD : ∀ a, Halts D E (f (some a))) :
    Tracks deep E R T (Grammar.optional p >>= f) (Grammar.optional q >>= g) := by
  intro cs ds hr
  obtain ⟨a, b, t, u, hp, hq, hs⟩ | ⟨hp, hq⟩ | hp | ⟨hd, hq⟩ := tracks_cases (h cs ds hr)
  · rw [bind_ok (optional_of_ok hp), bind_ok (optional_of_ok hq)]
    exact there a b t u hs
  · rw [bind_ok (optional_of_refuses hp), bind_ok (optional_of_refuses hq)]
    exact missing cs ds hr
  · exact .doomed (doomed_optional_bind hp hD)
  · exact .tooDeep hd (tooDeep_bind (tooDeep_optional hq) g)

/-- An optional part that reads the same on both sides decides on both how to go on. -/
theorem optional_bindSame {R' : List Char → List Char → Prop} {f g : Option α → Grammar β}
    (h : Tracks deep D R (Same R') p q)
    (there : ∀ a, Tracks deep E R' T (f (some a)) (g (some a)))
    (missing : Tracks deep E R T (f none) (g none)) (hD : ∀ a, Halts D E (f (some a))) :
    Tracks deep E R T (Grammar.optional p >>= f) (Grammar.optional q >>= g) :=
  h.optional_bind (fun _ _ => same (f := fun a => f (some a)) (g := fun b => g (some b)) there)
    missing hD

/-- Reading ahead leaves the texts as they were. -/
theorem peek (h : Tracks deep Never R S p q) :
    Tracks deep Never R (fun _ _ => R) (Grammar.peek p) (Grammar.peek q) := by
  intro cs ds hr
  obtain ⟨a, b, t, u, hp, hq, -⟩ | ⟨hp, hq⟩ | hp | ⟨hd, e, t, hq, he⟩ := tracks_cases (h cs ds hr)
  · exact tracks_of_ok (peek_ok hp) (peek_ok hq) hr
  · exact tracks_of_refuses hp.peek hq.peek
  · obtain ⟨_, _, -, never⟩ | ⟨f, t, e, hf⟩ := doomed_cases hp
    · exact never.elim
    · rw [Grammar.peek, e]
      exact .doomed hf
  · exact .tooDeep hd ⟨e, ds, by rw [Grammar.peek, hq], he⟩

theorem ite {c : Prop} [Decidable c] (h : c → Tracks deep D R S p q)
    (h' : ¬c → Tracks deep D R S p' q') :
    Tracks deep D R S (if c then p else p') (if c then q else q') := by
  split
  · exact h ‹_›
  · exact h' ‹_›

end Tracks

/-! ### Repetition -/

/-- A value in front of those that are read later. -/
def consed (a : α) : Outcome (List α) → Outcome (List α)
  | .ok as rest => .ok (a :: as) rest
  | .fail e rest => .fail e rest

/-- A repetition reads the first value, and then the others. -/
theorem manyWithin_of_ok {rest : List Char} {a : α} (h : p cs = .ok a rest) (fuel : Nat) :
    manyWithin p (fuel + 1) cs = consed a (manyWithin p fuel rest) := by
  rw [manyWithin, h]
  rfl

theorem separated_of_ok {s : Grammar Unit} {rest : List Char} {a : α} (h : p cs = .ok a rest) :
    separated p s cs = consed a (many (s >>= fun _ => p) rest) := by
  rw [separated, h]
  rfl

theorem doomed_consed {x : Outcome (List α)} (h : x.Doomed D) (a : α) : (consed a x).Doomed D := by
  cases x with
  | ok as rest => exact h
  | fail f rest => exact h

/-- Lists track one another from the first values on. -/
theorem tracks_consed {Q Q' : List α → List α → List Char → List Char → Prop}
    {x y : Outcome (List α)} (h : x.Tracks deep D Q y) {a b : α}
    (hc : ∀ as bs cs ds, Q as bs cs ds → Q' (a :: as) (b :: bs) cs ds) :
    (consed a x).Tracks deep D Q' (consed b y) := by
  cases h with
  | ok h => exact .ok (hc _ _ _ _ h)
  | refused hf hg => exact .refused hf hg
  | doomed h => exact .doomed (doomed_consed h a)
  | tooDeep hd hy =>
      obtain ⟨e, rest, rfl, he⟩ := hy
      exact .tooDeep hd ⟨e, rest, rfl, he⟩

/-- The reader gives no text back. -/
def Bounded (p : Grammar α) : Prop := ∀ cs a rest, p cs = .ok a rest → rest.length ≤ cs.length

/-- Readers that give no text back leave no longer texts. -/
theorem Tracks.within (h : Tracks deep D R S p q) (hp : Bounded p) (hq : Bounded q) (m n : Nat) :
    Tracks deep D (fun cs ds => R cs ds ∧ cs.length < m ∧ ds.length < n)
      (fun a b cs ds => S a b cs ds ∧ cs.length < m ∧ ds.length < n) p q := by
  rintro cs ds ⟨hr, hm, hn⟩
  obtain ⟨a, b, t, u, ep, eq, hs⟩ | ⟨ep, eq⟩ | ep | ⟨hd, eq⟩ := tracks_cases (h cs ds hr)
  · exact tracks_of_ok ep eq
      ⟨hs, Nat.lt_of_le_of_lt (hp cs a t ep) hm, Nat.lt_of_le_of_lt (hq ds b u eq) hn⟩
  · exact tracks_of_refuses ep eq
  · exact .doomed ep
  · exact .tooDeep hd eq

/-- The reader takes some text whenever it reads a value. -/
def Shortens (p : Grammar α) : Prop :=
  ∀ cs a rest, p cs = .ok a rest → rest.length < cs.length

/-- A repetition whose first reading is doomed is doomed. -/
theorem doomed_manyWithin (h : (p cs).Doomed D) (hD : ∀ cs, D cs → p.Refuses cs) (fuel : Nat) :
    (manyWithin p (fuel + 1) cs).Doomed D := by
  obtain ⟨a, rest, e, hd⟩ | ⟨f, t, e, hf⟩ := doomed_cases h
  · rw [manyWithin_of_ok e, manyWithin_of_refuses (hD rest hd)]
    exact hd
  · simp only [manyWithin, e, hf, if_true]
    exact hf

/-- A repetition whose first reading runs out of levels does. -/
theorem tooDeep_manyWithin (h : (q cs).TooDeep) (fuel : Nat) :
    (manyWithin q (fuel + 1) cs).TooDeep := by
  obtain ⟨e, t, hq, he, hl⟩ := h
  exact ⟨e, t, by simp [manyWithin, hq, he], he, hl⟩

namespace Tracks

variable {ι : Type} {P : ι → ι → α → α → Prop} {R : ι → List Char → List Char → Prop}

theorem manyWithin (h : ∀ i, Tracks deep D (R i) (Passes P R i) p q)
    (hD : ∀ cs, D cs → p.Refuses cs) (hp : Shortens p) (hq : Shortens q) :
    ∀ m n i cs ds, R i cs ds → cs.length < m → ds.length < n →
      (Grammar.manyWithin p m cs).Tracks deep D (Passes (Chained P) R i) (Grammar.manyWithin q n ds)
  | 0, _, _, _, _, _, hm, _ => absurd hm (Nat.not_lt_zero _)
  | _ + 1, 0, _, _, _, _, _, hn => absurd hn (Nat.not_lt_zero _)
  | m + 1, n + 1, i, cs, ds, hr, hm, hn => by
      obtain ⟨a, b, t, u, ep, eq, j, hv, hs⟩ | ⟨ep, eq⟩ | ep | ⟨hd, eq⟩ :=
        tracks_cases (h i cs ds hr)
      · have shorter := hp cs a t ep
        have shorter' := hq ds b u eq
        rw [manyWithin_of_ok ep, manyWithin_of_ok eq]
        refine tracks_consed (manyWithin h hD hp hq m n j t u hs (by omega) (by omega)) ?_
        rintro as bs cs ds ⟨k, more, last⟩
        exact ⟨k, .cons hv more, last⟩
      · rw [manyWithin_of_refuses ep, manyWithin_of_refuses eq]
        exact .ok ⟨i, .nil, hr⟩
      · exact .doomed (doomed_manyWithin ep hD m)
      · exact .tooDeep hd (tooDeep_manyWithin eq n)

/-- Repetitions track one another stage by stage. -/
theorem many (h : ∀ i, Tracks deep D (R i) (Passes P R i) p q) (hD : ∀ cs, D cs → p.Refuses cs)
    (hp : Shortens p) (hq : Shortens q) (i : ι) :
    Tracks deep D (R i) (Passes (Chained P) R i) (Grammar.many p) (Grammar.many q) :=
  fun _ _ hr =>
    manyWithin h hD hp hq _ _ i _ _ hr (Nat.lt_succ_self _) (Nat.lt_succ_self _)

/-- The first reading may start from texts of another kind, where nothing leads anywhere unless
there is one. -/
theorem separated {s s' : Grammar Unit} {i : ι} {R₀ : List Char → List Char → Prop}
    (h : Tracks deep D R₀ (Passes P R i) p q)
    (more : ∀ j, Tracks deep D (R j) (Passes P R j) (s >>= fun _ => p) (s' >>= fun _ => q))
    (missing : ∀ cs ds, R₀ cs ds → R i cs ds ∨ D cs) (hD : ∀ cs, D cs → s.Refuses cs)
    (hp : Shortens (s >>= fun _ => p)) (hq : Shortens (s' >>= fun _ => q)) :
    Tracks deep D R₀ (Passes (Chained P) R i) (Grammar.separated p s)
      (Grammar.separated q s') := by
  intro cs ds hr
  have stop : ∀ cs, D cs → (s >>= fun _ => p).Refuses cs := fun cs hc => (hD cs hc).bind _
  obtain ⟨a, b, t, u, ep, eq, j, hv, hs⟩ | ⟨ep, eq⟩ | ep | ⟨hd, e, t, eq, he, hl⟩ :=
    tracks_cases (h cs ds hr)
  · rw [separated_of_ok ep, separated_of_ok eq]
    refine tracks_consed (many more stop hp hq j t u hs) ?_
    rintro as bs cs ds ⟨k, more, last⟩
    exact ⟨k, .cons hv more, last⟩
  · rw [separated_of_refuses ep, separated_of_refuses eq]
    obtain hr | hd := missing cs ds hr
    · exact .ok ⟨i, .nil, hr⟩
    · exact .doomed hd
  · obtain ⟨a, t, e, hd⟩ | ⟨f, t, e, hf⟩ := doomed_cases ep
    · rw [separated_of_ok e]
      exact .doomed (doomed_consed (doomed_of_ok (manyWithin_of_refuses (stop t hd) _) hd) a)
    · simp only [Grammar.separated, e, hf, if_true]
      exact .doomed hf
  · exact .tooDeep hd ⟨e, t, by simp [Grammar.separated, eq, he], he, hl⟩

end Tracks

end Grammar

/-! ### What is reached -/

/-- The reader has read the value, or it has run out of levels. -/
inductive Outcome.Reaches (a : α) (A : List Char → Prop) : Outcome α → Prop where
  | ok {rest : List Char} (h : A rest) : Reaches a A (.ok a rest)
  | tooDeep {y : Outcome α} (h : y.TooDeep) : Reaches a A y

namespace Outcome.Reaches

open Grammar

variable {p q : Grammar α} {a : α} {b : β} {cs : List Char} {A B : List Char → Prop}

theorem of_or (h : (∃ rest, q cs = .ok a rest ∧ A rest) ∨ True ∧ (q cs).TooDeep) :
    (q cs).Reaches a A := by
  obtain ⟨rest, hq, hr⟩ | ⟨-, deep⟩ := h
  · exact hq ▸ .ok hr
  · exact .tooDeep deep

theorem mono (h : (q cs).Reaches a A) (hA : ∀ rest, A rest → B rest) : (q cs).Reaches a B := by
  generalize q cs = y at h
  cases h with
  | ok hr => exact .ok (hA _ hr)
  | tooDeep deep => exact .tooDeep deep

/-- The two ways in which a reader that is run may reach a value. -/
theorem cases (h : (q cs).Reaches a A) : (∃ rest, q cs = .ok a rest ∧ A rest) ∨ (q cs).TooDeep := by
  generalize q cs = y at h
  cases h with
  | ok hr => exact .inl ⟨_, rfl, hr⟩
  | tooDeep deep => exact .inr deep

/-- What goes on with a reader reaches its value if the reader reaches what it starts from. -/
theorem bind {g : α → Grammar β} (h : (q cs).Reaches a A)
    (hg : ∀ rest, A rest → (g a rest).Reaches b B) : ((q >>= g) cs).Reaches b B := by
  obtain ⟨rest, hq, hr⟩ | deep := h.cases
  · rw [bind_ok hq]
    exact hg rest hr
  · exact .tooDeep (tooDeep_bind deep g)

theorem marked (h : (q cs).Reaches a A) (m : Mark) : (Grammar.marked m q cs).Reaches a A := by
  obtain ⟨rest, hq, hr⟩ | deep := h.cases
  · rw [marked_ok hq]
    exact .ok hr
  · exact .tooDeep (tooDeep_marked deep m)

theorem commit (h : (q cs).Reaches a A) : (Grammar.commit q cs).Reaches a A := by
  obtain ⟨rest, hq, hr⟩ | deep := h.cases
  · rw [commit_ok hq]
    exact .ok hr
  · exact .tooDeep (tooDeep_commit deep)

/-- The first of two alternatives reaches its value for both. -/
theorem orElse (h : (q cs).Reaches a A) (p : Grammar α) : ((q <|> p) cs).Reaches a A := by
  obtain ⟨rest, hq, hr⟩ | deep := h.cases
  · rw [orElse_of_ok hq]
    exact .ok hr
  · exact .tooDeep (tooDeep_orElse deep)

/-- An optional part reaches the value if it is there. -/
theorem optional (h : (q cs).Reaches a A) : (Grammar.optional q cs).Reaches (some a) A := by
  obtain ⟨rest, hq, hr⟩ | deep := h.cases
  · rw [optional_of_ok hq]
    exact .ok hr
  · exact .tooDeep (tooDeep_optional deep)

end Outcome.Reaches

end Rulebook.Dsl
