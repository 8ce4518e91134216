import Rulebook.Dsl.Grammar

/-!
# Rulebook — Proofs — Dsl — Grammar

How the combinators of readers pass on what their parts do.  A reader *refuses* a text when it
fails on it openly, so that another reading of the same text is tried (`Refuses`).  One that either
reads a value or fails for good *yields* that value or none (`Yields`), and so does what is composed
of it.  The other way round, what a combinator has read was read by its parts (`bind_eq_ok`,
`optional_eq_ok` and others).
-/

namespace Rulebook.Dsl

/-- The outcome is a value and the text that is left, or a failure for good if there is no value. -/
def Outcome.Yields {α : Type} (x : Outcome α) (want : Option α) (rest : List Char) : Prop :=
  match want with
  | some a => x = .ok a rest
  | none => ∃ f rest', x = .fail f rest' ∧ f.committed = true

namespace Grammar

variable {α β : Type} {p q : Grammar α} {cs rest : List Char} {a : α}

instance : LawfulMonad Grammar :=
  .mk' _
    (fun p => by
      funext cs
      show (p >>= pure) cs = p cs
      rw [bind_apply]
      cases p cs <;> rfl)
    (fun _ _ => rfl)
    (fun p f g => by
      funext cs
      rw [bind_apply, bind_apply, bind_apply]
      cases p cs <;> rfl)

/-- The reader fails openly. -/
def Refuses (p : Grammar α) (cs : List Char) : Prop :=
  ∃ f rest, p cs = .fail f rest ∧ f.committed = false

/-- Whoever goes on with a reader refuses what that refuses. -/
theorem Refuses.bind (h : p.Refuses cs) (f : α → Grammar β) : (p >>= f).Refuses cs := by
  obtain ⟨e, rest, hp, he⟩ := h
  exact ⟨e, rest, bind_fail hp, he⟩

/-- A reader followed by another refuses what that refuses behind it. -/
theorem Refuses.of_bind {f : α → Grammar β} (h : p cs = .ok a rest) (hf : (f a).Refuses rest) :
    (p >>= f).Refuses cs := by
  obtain ⟨e, rest', hp, he⟩ := hf
  exact ⟨e, rest', (bind_ok h).trans hp, he⟩

theorem Refuses.marked (h : p.Refuses cs) (m : Mark) : (marked m p).Refuses cs := by
  obtain ⟨e, rest, hp, he⟩ := h
  exact ⟨⟨e.committed, e.marks ++ [m], e.cause⟩, rest, by rw [Grammar.marked, hp], he⟩

/-- An image is read where the value is. -/
theorem map_ok (h : p cs = .ok a rest) (f : α → β) :
    (do let x ← p; return f x : Grammar β) cs = .ok (f a) rest := bind_ok h

theorem marked_ok (h : p cs = .ok a rest) (m : Mark) : marked m p cs = .ok a rest := by
  rw [marked, h]

theorem expecting_ok (h : p cs = .ok a rest) (what : String) :
    expecting what p cs = .ok a rest := marked_ok h _

theorem expectingChar_ok (h : p cs = .ok a rest) (c : Char) :
    expectingChar c p cs = .ok a rest := marked_ok h _

theorem commit_ok (h : p cs = .ok a rest) : commit p cs = .ok a rest := by rw [commit, h]

/-- The first of two alternatives is taken if it reads. -/
theorem orElse_of_ok (h : p cs = .ok a rest) : (p <|> q) cs = .ok a rest := by
  show orElse p (fun _ => q) cs = _
  rw [orElse, h]

/-- The second of two alternatives is tried if the first refuses. -/
theorem orElse_of_refuses (h : p.Refuses cs) : (p <|> q) cs = q cs := by
  obtain ⟨e, r, hp, he⟩ := h
  show orElse p (fun _ => q) cs = _
  simp [orElse, hp, he]

/-- Two alternatives refuse what both refuse. -/
theorem Refuses.orElse (hp : p.Refuses cs) (hq : q.Refuses cs) : (p <|> q).Refuses cs := by
  obtain ⟨e, r, h, he⟩ := hq
  exact ⟨e, r, (orElse_of_refuses hp).trans h, he⟩

/-- An optional part is read if it is there. -/
theorem optional_of_ok (h : p cs = .ok a rest) : optional p cs = .ok (some a) rest := by
  rw [optional, h]

/-- An optional part is missing where it is refused, and takes nothing. -/
theorem optional_of_refuses (h : p.Refuses cs) : optional p cs = .ok none cs := by
  obtain ⟨e, r, hp, he⟩ := h
  simp [optional, hp, he]

/-- Reading ahead takes nothing. -/
theorem peek_ok (h : p cs = .ok a rest) : peek p cs = .ok a cs := by rw [peek, h]

theorem Refuses.peek (h : p.Refuses cs) : (peek p).Refuses cs := by
  obtain ⟨e, r, hp, he⟩ := h
  exact ⟨e, cs, by rw [Grammar.peek, hp], he⟩

theorem char_ok (c : Char) (cs : List Char) : char c (c :: cs) = .ok () cs := by
  simp [char]

/-- A character refuses what does not start with it. -/
theorem refuses_char {c : Char} (h : ∀ r, cs ≠ c :: r) : (char c).Refuses cs := by
  cases cs with
  | nil => exact ⟨.bare, [], rfl, rfl⟩
  | cons d ds =>
      have hd : d ≠ c := fun e => h ds (by rw [e])
      exact ⟨.bare, d :: ds, by simp [char, hd], rfl⟩

theorem exact_ok (text rest : List Char) : exact text (text ++ rest) = .ok () rest := by
  simp [exact]

/-- A text refuses what it does not start. -/
theorem refuses_exact {text : List Char} (h : ¬ text <+: cs) : (exact text).Refuses cs :=
  ⟨.bare, cs, by simp [exact, h], rfl⟩

theorem notBefore_ok {inside : Char → Bool} (h : ∀ c ∈ cs.head?, inside c = false) :
    notBefore inside cs = .ok () cs := by
  cases cs with
  | nil => rfl
  | cons c cs => simp [notBefore, h c rfl]

theorem refuses_notBefore {inside : Char → Bool} {c : Char} (h : inside c = true) :
    (notBefore inside).Refuses (c :: cs) :=
  ⟨.bare, c :: cs, by simp [notBefore, h], rfl⟩

/-! ### Repetition -/

/-- A repetition ends where its reader refuses. -/
theorem manyWithin_of_refuses (h : p.Refuses cs) (fuel : Nat) :
    manyWithin p fuel cs = .ok [] cs := by
  obtain ⟨e, r, hp, he⟩ := h
  cases fuel with
  | zero => rfl
  | succ fuel => simp [manyWithin, hp, he]

/-- A repetition reads the first value, and then the others. -/
theorem manyWithin_cons {as : List α} {rest' : List Char} {fuel : Nat} (h : p cs = .ok a rest)
    (hs : manyWithin p fuel rest = .ok as rest') :
    manyWithin p (fuel + 1) cs = .ok (a :: as) rest' := by
  simp [manyWithin, h, hs]

theorem separated_of_refuses {s : Grammar Unit} (h : p.Refuses cs) :
    separated p s cs = .ok [] cs := by
  obtain ⟨e, r, hp, he⟩ := h
  simp [separated, hp, he]

theorem separated_cons {s : Grammar Unit} {as : List α} {rest' : List Char}
    (h : p cs = .ok a rest) (hs : many (s >>= fun _ => p) rest = .ok as rest') :
    separated p s cs = .ok (a :: as) rest' := by
  simp [separated, h, hs]

/-! ### Values or failures for good -/

section Yields

variable {rest' : List Char} {want : Option α}

/-- What is composed of two readers yields as they do: no value of either is none of both. -/
theorem bind_yields {f : α → Grammar β} {g : α → Option β} (hp : (p cs).Yields want rest)
    (hf : ∀ a, want = some a → (f a rest).Yields (g a) rest') :
    ((p >>= f) cs).Yields (want.bind g) rest' := by
  cases want with
  | none =>
      obtain ⟨e, t, h, he⟩ := hp
      exact ⟨e, t, bind_fail h, he⟩
  | some a =>
      rw [bind_ok hp]
      exact hf a rfl

theorem bind_ok_yields {b : β} {f : β → Grammar α} {q : Grammar β} (hq : q cs = .ok b rest)
    (hf : (f b rest).Yields want rest') : ((q >>= f) cs).Yields want rest' := by
  rw [bind_ok hq]
  exact hf

/-- Whoever goes on with a failure for good fails for good. -/
theorem bind_none_yields {f : α → Grammar β} (hp : (p cs).Yields none rest) :
    ((p >>= f) cs).Yields none rest' :=
  bind_yields (g := fun _ => none) hp nofun

/-- What comes behind the value makes something else of it. -/
theorem map_yields {f : α → Grammar β} {g : α → β} (hp : (p cs).Yields want rest)
    (hf : ∀ a, f a rest = .ok (g a) rest') : ((p >>= f) cs).Yields (want.map g) rest' := by
  rw [Option.map_eq_bind]
  exact bind_yields hp fun a _ => hf a

/-- What comes behind the value passes it on. -/
theorem pass_yields {f : α → Grammar α} (hp : (p cs).Yields want rest)
    (hf : ∀ a, f a rest = .ok a rest') : ((p >>= f) cs).Yields want rest' := by
  have whole : ((p >>= f) cs).Yields (want.map id) rest' := map_yields hp hf
  rwa [Option.map_id_fun, id] at whole

theorem marked_yields (h : (p cs).Yields want rest) (m : Mark) :
    (marked m p cs).Yields want rest := by
  cases want with
  | none =>
      obtain ⟨e, t, h, he⟩ := h
      exact ⟨⟨e.committed, e.marks ++ [m], e.cause⟩, t, by rw [marked, h], he⟩
  | some a => exact marked_ok h m

theorem expecting_yields (h : (p cs).Yields want rest) (what : String) :
    (expecting what p cs).Yields want rest := marked_yields h _

theorem commit_yields (h : (p cs).Yields want rest) : (commit p cs).Yields want rest := by
  cases want with
  | none =>
      obtain ⟨e, t, h, -⟩ := h
      exact ⟨⟨true, e.marks, e.cause⟩, t, by rw [commit, h], rfl⟩
  | some a => exact commit_ok h

/-- The first of two alternatives decides if it reads or fails for good. -/
theorem orElse_yields (h : (p cs).Yields want rest) : ((p <|> q) cs).Yields want rest := by
  cases want with
  | none =>
      obtain ⟨e, t, h, he⟩ := h
      refine ⟨e, t, ?_, he⟩
      show orElse p (fun _ => q) cs = _
      simp [orElse, h, he]
  | some a => exact orElse_of_ok h

theorem optional_yields (h : (p cs).Yields want rest) :
    (optional p cs).Yields (want.map some) rest := by
  cases want with
  | none =>
      obtain ⟨e, t, h, he⟩ := h
      exact ⟨e, t, by simp [optional, h, he], he⟩
  | some a => exact optional_of_ok h

/-- A repetition yields its first value, and then the others. -/
theorem manyWithin_yields {wants : Option (List α)} {fuel : Nat} (h : (p cs).Yields want rest)
    (hs : (manyWithin p fuel rest).Yields wants rest') :
    (manyWithin p (fuel + 1) cs).Yields (want.bind fun a => wants.map (a :: ·)) rest' := by
  cases want with
  | none =>
      obtain ⟨e, t, h, he⟩ := h
      exact ⟨e, t, by simp [manyWithin, h, he], he⟩
  | some a =>
      cases wants with
      | none =>
          obtain ⟨e, t, hs, he⟩ := hs
          have h : p cs = .ok a rest := h
          exact ⟨e, t, by simp [manyWithin, h, hs], he⟩
      | some as => exact manyWithin_cons h hs

theorem separated_yields {s : Grammar Unit} {wants : Option (List α)}
    (h : (p cs).Yields want rest) (hs : (many (s >>= fun _ => p) rest).Yields wants rest') :
    (separated p s cs).Yields (want.bind fun a => wants.map (a :: ·)) rest' := by
  cases want with
  | none =>
      obtain ⟨e, t, h, he⟩ := h
      exact ⟨e, t, by simp [separated, h, he], he⟩
  | some a =>
      cases wants with
      | none =>
          obtain ⟨e, t, hs, he⟩ := hs
          have h : p cs = .ok a rest := h
          exact ⟨e, t, by simp [separated, h, hs], he⟩
      | some as => exact separated_cons h hs

end Yields

/-! ### Failures of either kind -/

/-- The reader fails, openly or for good. -/
def Fails (p : Grammar α) (cs : List Char) : Prop := ∃ f rest, p cs = .fail f rest

/-- Refusing is failing. -/
theorem Refuses.fails (h : p.Refuses cs) : p.Fails cs := by
  obtain ⟨e, t, h, -⟩ := h
  exact ⟨e, t, h⟩

theorem Fails.bind (h : p.Fails cs) (f : α → Grammar β) : (p >>= f).Fails cs := by
  obtain ⟨e, t, h⟩ := h
  exact ⟨e, t, bind_fail h⟩

theorem Fails.of_bind {f : α → Grammar β} (h : p cs = .ok a rest) (hf : (f a).Fails rest) :
    (p >>= f).Fails cs := by
  obtain ⟨e, t, hf⟩ := hf
  exact ⟨e, t, (bind_ok h).trans hf⟩

theorem Fails.marked (h : p.Fails cs) (m : Mark) : (marked m p).Fails cs := by
  obtain ⟨e, t, h⟩ := h
  exact ⟨⟨e.committed, e.marks ++ [m], e.cause⟩, t, by rw [Grammar.marked, h]⟩

/-- Two alternatives fail where both do. -/
theorem Fails.orElse (hp : p.Fails cs) (hq : q.Fails cs) : (p <|> q).Fails cs := by
  obtain ⟨e, t, hp⟩ := hp
  cases he : e.committed with
  | false =>
      obtain ⟨e', t', hq⟩ := hq
      exact ⟨e', t', (orElse_of_refuses ⟨e, t, hp, he⟩).trans hq⟩
  | true =>
      refine ⟨e, t, ?_⟩
      show Grammar.orElse p (fun _ => q) cs = _
      simp [Grammar.orElse, hp, he]

/-- What is committed to fails for good if it fails. -/
theorem Fails.commit (h : p.Fails cs) (rest : List Char) : (commit p cs).Yields none rest := by
  obtain ⟨e, t, h⟩ := h
  exact ⟨⟨true, e.marks, e.cause⟩, t, by rw [Grammar.commit, h], rfl⟩

theorem fails_of_yields (h : (p cs).Yields none rest) : p.Fails cs := by
  obtain ⟨e, t, h, -⟩ := h
  exact ⟨e, t, h⟩

/-- Where one reading fails, another one is tried, or all fails for good. -/
theorem Fails.optional (h : p.Fails cs) (rest : List Char) :
    optional p cs = .ok none cs ∨ (optional p cs).Yields none rest := by
  obtain ⟨e, t, h⟩ := h
  cases he : e.committed with
  | false => exact .inl (optional_of_refuses ⟨e, t, h, he⟩)
  | true => exact .inr ⟨e, t, by simp [Grammar.optional, h, he], he⟩

/-! ### What was read -/

/-- What two readers have read one behind the other each has read. -/
theorem bind_eq_ok {f : α → Grammar β} {b : β} (h : (p >>= f) cs = .ok b rest) :
    ∃ a mid, p cs = .ok a mid ∧ f a mid = .ok b rest := by
  cases hp : p cs with
  | ok a mid => exact ⟨a, mid, rfl, (bind_ok hp).symm.trans h⟩
  | fail e mid =>
      rw [bind_fail hp] at h
      cases h

theorem marked_eq_ok {m : Mark} (h : marked m p cs = .ok a rest) : p cs = .ok a rest := by
  rw [marked] at h
  cases hp : p cs with
  | ok b mid => rw [hp] at h; exact h
  | fail e mid => rw [hp] at h; cases h

theorem commit_eq_ok (h : commit p cs = .ok a rest) : p cs = .ok a rest := by
  rw [commit] at h
  cases hp : p cs with
  | ok b mid => rw [hp] at h; exact h
  | fail e mid => rw [hp] at h; cases h

/-- Reading ahead leaves the text as it was. -/
theorem peek_eq_ok (h : peek p cs = .ok a rest) : rest = cs := by
  rw [peek] at h
  cases hp : p cs with
  | ok b mid => rw [hp] at h; cases h; rfl
  | fail e mid => rw [hp] at h; cases h

/-- What is read ahead can be read. -/
theorem exists_of_peek (h : peek p cs = .ok a rest) : ∃ after, p cs = .ok a after := by
  rw [peek] at h
  cases hp : p cs with
  | ok b after =>
      rw [hp] at h
      cases h
      exact ⟨after, rfl⟩
  | fail e after => rw [hp] at h; cases h

/-- What two alternatives have read one of them has read. -/
theorem orElse_eq_ok (h : (p <|> q) cs = .ok a rest) :
    p cs = .ok a rest ∨ q cs = .ok a rest := by
  change orElse p (fun _ => q) cs = .ok a rest at h
  rw [orElse] at h
  cases hp : p cs with
  | ok b mid => rw [hp] at h; exact .inl h
  | fail e mid =>
      rw [hp] at h
      dsimp only at h
      split at h
      · cases h
      · exact .inr h

/-- An optional part was read, or nothing was. -/
theorem optional_eq_ok {o : Option α} (h : optional p cs = .ok o rest) :
    (∃ a, o = some a ∧ p cs = .ok a rest) ∨ (o = none ∧ rest = cs) := by
  rw [optional] at h
  cases hp : p cs with
  | ok b mid =>
      rw [hp] at h
      cases h
      exact .inl ⟨b, rfl, rfl⟩
  | fail e mid =>
      rw [hp] at h
      dsimp only at h
      split at h
      · cases h
      · cases h
        exact .inr ⟨rfl, rfl⟩

/-- A character was read from its text. -/
theorem char_eq_ok {c : Char} {u : Unit} (h : char c cs = .ok u rest) : cs = c :: rest := by
  cases cs with
  | nil => cases h
  | cons d ds =>
      rw [char] at h
      split at h
      · rename_i e
        cases h
        rw [e]
      · cases h

theorem exact_eq_ok {text : List Char} {u : Unit} (h : exact text cs = .ok u rest) :
    cs = text ++ rest := by
  rw [exact] at h
  split at h
  · rename_i hp
    obtain ⟨t, rfl⟩ := List.isPrefixOf_iff_prefix.mp hp
    rw [List.drop_left] at h
    cases h
    rfl
  · cases h

/-- A check that no such character follows takes nothing. -/
theorem notBefore_eq_ok {inside : Char → Bool} {u : Unit} (h : notBefore inside cs = .ok u rest) :
    rest = cs ∧ ∀ c ∈ cs.head?, inside c = false := by
  cases cs with
  | nil =>
      cases h
      exact ⟨rfl, nofun⟩
  | cons c cs =>
      rw [notBefore] at h
      split at h
      · cases h
      · rename_i hc
        cases h
        exact ⟨rfl, by simpa using hc⟩

end Grammar

end Rulebook.Dsl
