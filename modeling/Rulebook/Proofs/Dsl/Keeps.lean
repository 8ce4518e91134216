import Rulebook.Proofs.Dsl.Grammar

/-!
# Rulebook — Proofs — Dsl — Keeps

What a reader does on every text of some kind, not only on written ones.  It *takes* texts of one
kind to another kind if what it leaves of a text of the first is of the second, and then what it
gives has a property of its own (`Takes`); it *keeps* a kind that it takes to itself (`Keeps`).  A
combinator of readers does what its parts do; nothing is asked of failures, which go back to a place
where a reader started.
-/

namespace Rulebook.Dsl.Grammar

variable {α β : Type} {I J K : List Char → Prop} {p q : Grammar α} {Q : α → Prop}

/-- What is left of a text of kind `I` is of kind `J`, and what is read has the property `Q`. -/
def Takes (I J : List Char → Prop) (p : Grammar α) (Q : α → Prop) : Prop :=
  ∀ cs a rest, I cs → p cs = .ok a rest → J rest ∧ Q a

/-- What is left of a text of kind `I` is of that kind, and what is read has the property `Q`. -/
abbrev Keeps (I : List Char → Prop) (p : Grammar α) (Q : α → Prop) : Prop := Takes I I p Q

namespace Takes

theorem pure {a : α} (h : Q a) : Takes I I (Pure.pure a) Q := by
  intro cs b rest hI hp
  cases hp
  exact ⟨hI, h⟩

/-- One reader behind another takes a text where the two lead, one behind the other. -/
theorem bind {f : α → Grammar β} {R : β → Prop} (hp : Takes I J p Q)
    (hf : ∀ a, Q a → Takes J K (f a) R) : Takes I K (p >>= f) R := by
  intro cs b rest hI h
  obtain ⟨a, mid, ha, hb⟩ := bind_eq_ok h
  obtain ⟨hmid, hQ⟩ := hp cs a mid hI ha
  exact hf a hQ mid b rest hmid hb

theorem abort (marks : List Mark) : Takes I J (Grammar.abort marks : Grammar α) Q := by
  intro cs a rest _ h
  cases h

theorem ite {c : Prop} [Decidable c] (hp : Takes I J p Q) (hq : Takes I J q Q) :
    Takes I J (if c then p else q) Q := by
  split
  · exact hp
  · exact hq

/-- A mark changes nothing about what is taken. -/
theorem marked (h : Takes I J p Q) (m : Mark) : Takes I J (Grammar.marked m p) Q :=
  fun cs a rest hI hp => h cs a rest hI (marked_eq_ok hp)

theorem expecting (h : Takes I J p Q) (what : String) : Takes I J (Grammar.expecting what p) Q :=
  h.marked _

theorem expectingChar (h : Takes I J p Q) (c : Char) : Takes I J (Grammar.expectingChar c p) Q :=
  h.marked _

/-- Committing changes nothing about what is taken. -/
theorem commit (h : Takes I J p Q) : Takes I J (Grammar.commit p) Q :=
  fun cs a rest hI hp => h cs a rest hI (commit_eq_ok hp)

/-- Two alternatives take what each of them takes. -/
theorem orElse (hp : Takes I J p Q) (hq : Takes I J q Q) : Takes I J (p <|> q) Q := by
  intro cs a rest hI h
  rcases orElse_eq_ok h with h | h
  · exact hp cs a rest hI h
  · exact hq cs a rest hI h

/-- After an optional part, the text is of one kind if it was there and of another if not. -/
theorem optional_bind {f : Option α → Grammar β} {R : β → Prop} (hp : Takes I J p Q)
    (there : ∀ a, Q a → Takes J K (f (some a)) R) (missing : Takes I K (f none) R) :
    Takes I K (Grammar.optional p >>= f) R := by
  intro cs b rest hI h
  obtain ⟨o, mid, ho, hb⟩ := bind_eq_ok h
  obtain ⟨a, rfl, ha⟩ | ⟨rfl, rfl⟩ := optional_eq_ok ho
  · obtain ⟨hmid, hQ⟩ := hp cs a mid hI ha
    exact there a hQ mid b rest hmid hb
  · exact missing _ b rest hI hb

/-! ### Kinds that are kept -/

/-- An optional part keeps a kind of texts that its reader keeps. -/
theorem optional (h : Keeps I p Q) :
    Keeps I (Grammar.optional p) fun o => ∀ a, o = some a → Q a := by
  intro cs o rest hI hp
  obtain ⟨a, rfl, ha⟩ | ⟨rfl, rfl⟩ := optional_eq_ok hp
  · obtain ⟨hrest, hQ⟩ := h cs a rest hI ha
    exact ⟨hrest, fun b hb => Option.some.inj hb ▸ hQ⟩
  · exact ⟨hI, nofun⟩

/-- Reading ahead leaves the whole text. -/
theorem peek (p : Grammar α) : Keeps I (Grammar.peek p) fun _ => True := by
  intro cs a rest hI hp
  obtain rfl := peek_eq_ok hp
  exact ⟨hI, trivial⟩

theorem manyWithin (h : Keeps I p Q) (fuel : Nat) :
    Keeps I (Grammar.manyWithin p fuel) fun l => ∀ a ∈ l, Q a := by
  induction fuel with
  | zero =>
      intro cs l rest hI hp
      cases hp
      exact ⟨hI, List.forall_mem_nil _⟩
  | succ fuel ih =>
      intro cs l rest hI hp
      rw [Grammar.manyWithin] at hp
      cases hr : p cs with
      | fail e rest' =>
          rw [hr] at hp
          dsimp only at hp
          split at hp
          · cases hp
          · cases hp
            exact ⟨hI, List.forall_mem_nil _⟩
      | ok a rest' =>
          rw [hr] at hp
          dsimp only at hp
          obtain ⟨hrest', ha⟩ := h cs a rest' hI hr
          cases hm : Grammar.manyWithin p fuel rest' with
          | fail e rest'' => rw [hm] at hp; cases hp
          | ok as rest'' =>
              rw [hm] at hp
              cases hp
              obtain ⟨hrest, has⟩ := ih rest' as rest hrest' hm
              exact ⟨hrest, List.forall_mem_cons.mpr ⟨ha, has⟩⟩

/-- A repetition keeps a kind of texts that its reader keeps. -/
theorem many (h : Keeps I p Q) : Keeps I (Grammar.many p) fun l => ∀ a ∈ l, Q a :=
  fun cs => h.manyWithin (cs.length + 1) cs

/-- A list with separators keeps a kind of texts that its readers keep. -/
theorem separated (h : Keeps I p Q) {separator : Grammar Unit}
    (hs : Keeps I separator fun _ => True) :
    Keeps I (Grammar.separated p separator) fun l => ∀ a ∈ l, Q a := by
  intro cs l rest hI hp
  rw [Grammar.separated] at hp
  cases hr : p cs with
  | fail e rest' =>
      rw [hr] at hp
      dsimp only at hp
      split at hp
      · cases hp
      · cases hp
        exact ⟨hI, List.forall_mem_nil _⟩
  | ok a rest' =>
      rw [hr] at hp
      dsimp only at hp
      obtain ⟨hrest', ha⟩ := h cs a rest' hI hr
      cases hm : Grammar.many (separator >>= fun _ => p) rest' with
      | fail e rest'' => rw [hm] at hp; cases hp
      | ok as rest'' =>
          rw [hm] at hp
          cases hp
          obtain ⟨hrest, has⟩ := (hs.bind fun _ _ => h).many rest' as rest hrest' hm
          exact ⟨hrest, List.forall_mem_cons.mpr ⟨ha, has⟩⟩

end Takes

end Rulebook.Dsl.Grammar
