import Rulebook.Proofs.Dsl.Accepted
import Rulebook.Proofs.Dsl.Bridge
import Rulebook.Proofs.Lint.Tokens
import Rulebook.Proofs.Rule.Renaming

/-!
# Rulebook — Proofs — Dsl — Arguments

Calls on two texts whose lexemes go together.  What is read from both texts is related by any
relation of rules that goes along with what the grammar builds (`Fits`).  The names in a call go
together, and everything else in it is the same (`Bridge.tracks_callBody`).
-/

namespace Rulebook.Dsl

open Grammar

variable {α : Type}

/-! ### Lengths -/

section

variable {p : Grammar α} {Q : List Char → α → Prop}

theorem Cut.length_le {text cs : List Char} {n : Nat} (h : Cut text n cs) :
    cs.length ≤ text.length := by
  have shorter (inside : Char → Bool) (cs : List Char) :
      (cs.dropWhile inside).length ≤ cs.length := (List.dropWhile_suffix _).length_le
  induction h with
  | whole => exact Nat.le_refl _
  | trivia _ ih => exact Nat.le_trans (skipTrivia_length_le _) ih
  | name _ _ ih => exact Nat.le_trans (Nat.le_succ_of_le (shorter _ _)) ih
  | digits _ _ ih => exact Nat.le_trans (Nat.le_succ_of_le (shorter _ _)) ih
  | string _ hs ih =>
      obtain ⟨body, -, rfl, -⟩ := Lint.stringBody_of_stringRest hs
      simp only [List.length_cons, List.length_append] at ih
      omega
  | reference _ _ ih =>
      simp at ih
      omega
  | symbol _ _ ih => exact Nat.le_of_succ_le ih
  | opening _ ih => exact Nat.le_of_succ_le ih
  | closing _ ih => exact Nat.le_of_succ_le ih

/-- A reader that leads from cut to cut makes no text longer. -/
theorem bounded_of_keeps (h : ∀ text, Keeps (Cut text 0) p (Q text)) : Bounded p :=
  fun cs a rest hp => (h cs cs a rest .whole hp).1.length_le

theorem shortens_spaced (c : Char) (h : ∀ text, Keeps (Cut text 0) p (Q text)) :
    Shortens (do spaced c; p) := by
  intro cs a rest hp
  obtain ⟨_, mid, hs, hp⟩ := bind_eq_ok hp
  obtain ⟨_, cs', ht, hc⟩ := bind_eq_ok hs
  cases ht
  have taken := congrArg List.length (char_eq_ok hc)
  have skipped := skipTrivia_length_le cs
  have kept := bounded_of_keeps h mid a rest hp
  rw [List.length_cons] at taken
  omega

end

/-! ### What is read -/

/-- The names of calls in both texts. -/
def Bridge.Names (B : Bridge) : String → String → Prop := B.Spells id

/-- The relation goes along with what the grammar builds.  It depends on whether the texts had
passed the gate before the rules, and whether they have behind them. -/
structure Fits (B : Bridge) (P : Bool → Bool → Rule → Rule → Prop) : Prop where
  atom : ∀ {i : Bool} {a b : Atom}, a.Renamed B.Names b → P i i (.atom a none) (.atom b none)
  scope : ∀ {i j : Bool} {s t : Scope} {r q : Rule}, s.Renamed B.Names t → P i j r q →
    P i j (.scope s r none) (.scope t q none)
  junction : ∀ {i j : Bool} {k : Junction} {rs qs : List Rule}, Chained P i j rs qs →
    P i j (.junction k rs none) (.junction k qs none)
  cancel : ∀ {j : Bool} {r q : Rule}, B.gated → P true j r q →
    P false j (.group .not [.group .not [r]]) q

variable {B : Bridge} {P : Bool → Bool → Rule → Rule → Prop} {deep : Prop} {i : Bool} {n : Nat}
  {D : List Char → Prop}

/-! ### Arguments of calls -/

/-- A place behind arguments of a call where it cannot be closed. -/
def Bridge.Lost (B : Bridge) (cs : List Char) : Prop := Midway cs ∨ B.Dead cs

/-- The parameters go together by name, and have the same values. -/
def PassesParameter (B : Bridge) (i j : Bool) (p q : String × Literal) : Prop :=
  i = j ∧ B.Names p.1 q.1 ∧ p.2 = q.2

/-- The arguments go together. -/
def PassesArgument (B : Bridge) (i j : Bool) (a b : Argument) : Prop := i = j ∧ a.Renamed B.Names b

/-- Elements that stay on one side of the gate. -/
theorem forall₂_of_chained {R : α → α → Prop} {j : Bool} {as bs : List α}
    (h : Chained (fun i j a b => i = j ∧ R a b) i j as bs) : i = j ∧ List.Forall₂ R as bs := by
  induction h with
  | nil => exact ⟨rfl, .nil⟩
  | cons h t ih =>
      obtain ⟨rfl, h⟩ := h
      exact ⟨ih.1, .cons h ih.2⟩

namespace Bridge

theorem tracks_parameter : Tracks deep B.Dead (B.Aligned false i (n + 1))
    (Passes (PassesParameter B) (B.Settled · (n + 1)) i) parameter parameter := by
  have equals : Needed Midway (expectingChar '=' (commit (char '='))) :=
    (needed_of_halting halting_equals (wordless_char (by decide))).marked _
  have value (key key' : String) (hk : B.Names key key') : Tracks deep B.Dead
      (B.Aligned false i (n + 1)) (Passes (PassesParameter B) (B.Settled · (n + 1)) i)
      (do let v ← argument literalValue; return (key, v))
      (do let v ← argument literalValue; return (key', v)) := by
    have literal : Tracks deep B.Dead (B.Aligned false i (n + 1)) (Same (B.Settled i (n + 1)))
        (argument literalValue) (argument literalValue) := by
      refine (tracks_argument lexical_literalValue wordless_literalValue).settle
        (fun _ => False.elim) ?_
      rintro v _ cs ds ⟨rfl, hs⟩
      exact hs.settled.imp_left fun hs => ⟨rfl, hs⟩
    exact literal.bindSame (fun v => .pure fun _ _ hs => ⟨i, ⟨rfl, hk, rfl⟩, hs⟩) fun _ => .pure _
  have key := (@tracks_name B i (n + 1) _ deep _ _
    (naming_nameString.expecting "parameter name").commit).starting
      fun _ _ (h : B.Aligned false i (n + 1) _ _) => h.begins
  refine key.bind (fun a b => .given fun hk => ?_) fun a => equals.halts_bind _
  refine (tracks_needed_bind equals (fun _ => value a b hk) fun _ => ?_).starting
    fun _ _ => Settled.aligned
  have stops : Halts Midway Never (argument literalValue) := fun _ h =>
    doomed_of_yields (midway_literalValue h [])
  exact stops.bind fun _ => .of_never

section

variable {rule rule' : Grammar Rule} (hP : Fits B P)
  (hr : ∀ i, Tracks deep B.Dead (B.Begins i (n + 1)) (Passes P (B.Settled · (n + 1)) i) rule rule')
  (hk : ∀ text, Keeps (Cut text 0) rule (PassesIn text))
  (hk' : ∀ text, Keeps (Cut text 0) rule' (PassesIn text))

include hr in
theorem tracks_ruleArgument : Tracks deep B.Dead (B.Aligned false i (n + 1))
    (Passes P (B.Settled · (n + 1)) i) (argument rule) (argument rule') :=
  (tracks_begins.step fun _ => (hr i).commit).starting fun _ _ => Aligned.begins

include hr hk hk' in
/-- Lists of rules in brackets track one another. -/
theorem tracks_ruleList : Tracks deep Never (B.Aligned false i (n + 1))
    (Passes (Chained P) (B.Aligned false · (n + 1)) i) (ruleList rule) (ruleList rule') := by
  have bracket : Needed Never (expectingChar '[' (commit (char '['))) :=
    (needed_of_lexical (lexical_char (by decide)) (wordless_char (by decide))).marked _
  have first (i : Bool) : Tracks deep B.Dead (B.Aligned false i (n + 1))
      (Passes P (B.Settled · (n + 1)) i) rule rule' := (hr i).starting fun _ _ => Aligned.begins
  have rules : Tracks deep B.Dead (B.Aligned false i (n + 1))
      (Passes (Chained P) (B.Settled · (n + 1)) i) (separated rule (spaced ','))
      (separated rule' (spaced ',')) :=
    (first i).separated (fun j => tracks_separator.step fun _ => first j)
      (fun _ _ => Aligned.settled) (fun _ h => h.refuses (by decide)) (shortens_spaced ',' hk)
      (shortens_spaced ',' hk')
  refine tracks_needed_bind bracket (fun _ => ?_) fun _ => .of_never
  refine rules.bind (fun rs qs => .passes fun j hp => ?_) fun _ =>
    (halts_punctuation (by decide)).bind fun _ => .of_never
  exact (tracks_bracket.starting fun _ _ => Settled.aligned).step fun _ =>
    .pure fun _ _ h => ⟨j, hp, h⟩

/-- What goes together behind the arguments of a call. -/
abbrev Answers (B : Bridge) (P : Bool → Bool → Rule → Rule → Prop) (n : Nat) (i : Bool) :
    Rule → Rule → List Char → List Char → Prop := Passes P (B.Aligned false · (n + 1)) i

/-- A field, and what comes behind the comma. -/
theorem tracks_field {E : List Char → Prop} {T : Rule → Rule → List Char → List Char → Prop}
    {g g' : String → Grammar Rule} (hg : ∀ a b, B.Names a b →
      Tracks deep E (B.Aligned false i (n + 1)) T (g a) (g' b)) :
    Tracks deep E (B.Aligned false i (n + 1)) T
      (do let a ← argument fieldName; punctuation ','; g a)
      (do let a ← argument fieldName; punctuation ','; g' a) := by
  have field : Tracks deep B.Dead (B.Aligned false i (n + 1))
      (fun a b cs ds => B.Names a b ∧ B.Settled i (n + 1) cs ds) (argument fieldName)
      (argument fieldName) :=
    (tracks_name naming_fieldName.commit).starting fun _ _ => Aligned.begins
  refine field.bind (fun a b => .given fun hn => ?_) fun a =>
    (halts_punctuation (by decide)).bind fun _ => .of_never
  exact (tracks_comma.starting fun _ _ => Settled.aligned).step fun _ => hg a b hn

include hr in
/-- A rule as the last argument. -/
theorem tracks_body {f g : Rule → Rule} (hf : ∀ j r q, P i j r q → P i j (f r) (g q)) :
    Tracks deep B.Lost (B.Aligned false i (n + 1)) (Answers B P n i)
      (do let r ← argument rule; return f r) (do let r ← argument rule'; return g r) :=
  (tracks_ruleArgument hr).bind
    (fun r q => .passes fun j hp => .pure fun _ _ h => ⟨j, hf j r q hp, h.aligned⟩)
    fun _ _ => .inr

/-- A last argument that is the same in both calls. -/
theorem tracks_last {β : Type} {D : List Char → Prop} {p : Grammar β}
    {a b : β → Atom} (hP : Fits B P) (h : Tracks deep D (B.Aligned false i (n + 1))
      (Same (B.Aligned false i (n + 1))) p p) (hD : ∀ cs, D cs → B.Lost cs)
    (hs : ∀ v, (a v).Renamed B.Names (b v)) : Tracks deep B.Lost (B.Aligned false i (n + 1))
      (Answers B P n i) (do let v ← p; return .atom (a v) none)
      (do let v ← p; return .atom (b v) none) :=
  h.bindSame (fun v => .pure fun _ _ h => ⟨i, hP.atom (hs v), h⟩) fun _ => hD

theorem tracks_string (what : String) : Tracks deep D (B.Aligned false i (n + 1))
    (Same (B.Aligned false i (n + 1))) (stringArgument what) (stringArgument what) :=
  tracks_argument (lexical_stringLiteral.expecting what) (wordless_stringLiteral.marked _)

include hP hr hk hk' in
/-- The arguments of a call, form by form. -/
theorem tracks_callArguments {name name' : String} (hn : B.Names name name') (form : CallForm) :
    Tracks deep B.Lost (B.Aligned false i (n + 1)) (Answers B P n i)
      (callArguments rule name form) (callArguments rule' name' form) := by
  cases form with
  | requirement kind =>
      exact tracks_field fun _ _ hf => tracks_body hr fun _ _ _ => hP.scope (.conditional kind hf)
  | forEach => exact tracks_field fun _ _ hf => tracks_body hr fun _ _ _ => hP.scope (.forEach hf)
  | guarded guard =>
      exact tracks_field fun _ _ hf => tracks_body hr fun _ _ _ => hP.scope (.guarded guard hf)
  | withDefault =>
      exact tracks_field fun _ _ hf =>
        (tracks_argument lexical_literalValue wordless_literalValue).step fun v =>
          tracks_comma.step fun _ => tracks_body hr fun _ _ _ => hP.scope (.withDefault hf v)
  | uniqueBy =>
      exact tracks_field fun _ _ hf =>
        tracks_last hP (tracks_string _) (fun _ => False.elim) fun _ => .uniqueBy hf _
  | length bound =>
      exact tracks_field fun _ _ hf =>
        tracks_last hP (tracks_haltingArgument (halting_naturalBelow _) (wordless_naturalBelow _))
          (fun _ => .inl) fun _ => .length bound hf _
  | quota kind =>
      refine (tracks_haltingArgument (halting_naturalBelow _) (wordless_naturalBelow _)).bindSame
        (fun c => tracks_comma.step fun _ => ?_) fun _ =>
          (halts_midway (by decide)).bind fun _ => .of_never
      exact (tracks_ruleList hr hk hk').andThen fun rs qs => .passes fun j hp =>
        .pure fun _ _ h => ⟨j, hP.junction hp, h⟩
  | contextual => exact tracks_last hP (tracks_string _) (fun _ => False.elim) fun _ => .same _
  | expression => exact tracks_last hP (tracks_string _) (fun _ => False.elim) fun _ => .same _
  | custom =>
      exact (tracks_string _).step fun _ => tracks_comma.step fun _ =>
        tracks_last hP (tracks_argument lexical_payload wordless_payload) (fun _ => False.elim)
          fun _ => .same _
  | template =>
      have parameters : Shortens (do spaced ','; parameter) :=
        shortens_spaced ',' fun _ => keeps_parameter
      have id : Tracks deep B.Dead (B.Aligned false i (n + 1)) (Same (B.Settled i (n + 1)))
          (stringArgument "template id") (stringArgument "template id") := by
        refine (tracks_string _).settle (D := Never) (fun _ => False.elim) ?_
        rintro a _ cs ds ⟨rfl, h⟩
        exact h.settled.imp_left fun h => ⟨rfl, h⟩
      have refuses : ∀ cs, B.Dead cs → (do spaced ','; parameter).Refuses cs := fun cs h =>
        (h.refuses (by decide)).bind _
      refine id.bindSame (fun id => ?_) fun _ => (Halts.many refuses).bind fun _ _ => .inr
      refine (Tracks.many (fun j => tracks_separator.step fun _ => tracks_parameter) refuses parameters
        parameters i).bind (fun ps qs => .passes fun j hp => .pure fun cs ds h => ?_) fun _ _ => .inr
      obtain ⟨rfl, each⟩ := forall₂_of_chained hp
      exact ⟨i, hP.atom (.template id each), h.aligned⟩
  | plain =>
      have argument (j : Bool) : Tracks deep B.Dead (B.Begins j (n + 1))
          (Passes (PassesArgument B) (B.Settled · (n + 1)) j) (do trivia; functionArgument)
          (do trivia; functionArgument) := by
        refine (tracks_name naming_functionArgument).into ?_
        rintro a b cs ds ⟨rfl | ⟨w, w', hw, rfl, rfl⟩, h⟩
        · exact ⟨j, ⟨rfl, .same a⟩, h⟩
        · exact ⟨j, ⟨rfl, .field (.inr ⟨w, w', hw, rfl, rfl⟩)⟩, h⟩
      have shorter : Shortens (do spaced ','; trivia; functionArgument) :=
        shortens_spaced ',' fun _ => keeps_trivia.bind fun _ _ => keeps_functionArgument
      refine (tracks_begins.starting fun _ _ => Aligned.begins).step fun _ => ?_
      refine ((argument i).separated (fun j => tracks_separator.step fun _ =>
        (argument j).starting fun _ _ => Aligned.begins) (fun _ _ h => h.imp .inl AtGate.dead)
          (fun _ h => h.refuses (by decide)) shorter shorter).bind (fun as bs => .passes fun j hp =>
            .pure fun cs ds h => ?_) fun _ _ => .inr
      obtain ⟨rfl, each⟩ := forall₂_of_chained hp
      exact ⟨i, hP.atom (.call hn each), h.aligned⟩

include hP hr hk hk' in
/-- The body of a call closes the parenthesis in front of it. -/
theorem tracks_callBody {name name' : String} (hn : B.Names name name')
    (hf : callForm name' = callForm name) : Tracks deep Never (B.Aligned false i (n + 1))
      (Passes P (B.Aligned false · n) i) (callBody rule name) (callBody rule' name') := by
  have lost (r : Rule) : Halts B.Lost Never (do punctuation ')'; return r : Grammar Rule) := by
    rintro cs (h | h)
    · exact (halts_midway (by decide)).bind (fun _ => .of_never) cs h
    · exact (halts_punctuation (by decide)).bind (fun _ => .of_never) cs h
  rw [callBody, callBody, hf]
  exact (tracks_callArguments hP hr hk hk' hn _).bind (fun r q => .passes fun j hp =>
    tracks_close.step fun _ => .pure fun _ _ h => ⟨j, hp, h⟩) lost

end

end Bridge

end Rulebook.Dsl
