import Mathlib.Data.List.Forall2
import Rulebook.Proofs.KeyMap
import Rulebook.Proofs.Rule.Tree

/-!
# Rulebook — Proofs — Rule — Renaming

Rules that differ in nothing but the names in their calls: those of functions, and of the fields and
parameters among the arguments (`Rule.Renamed`).  The fields of conditions are the same.  Diagnostic
records go to the same rules of both trees (`Rule.Renamed.annotate`), and a rule none of whose names
stands for another one is renamed to itself (`Rule.Renamed.eq`).
-/

namespace Rulebook

variable {N : String → String → Prop}

/-! ### Names in calls -/

/-- The field that an argument names. -/
def Argument.callNames : Argument → List String
  | ⟨.string s, .fieldReference⟩ => [s]
  | _ => []

/-- The names in a call: that of the function, and those of fields and parameters. -/
def Atom.callNames : Atom → List String
  | .uniqueBy array _ => [array]
  | .length _ array _ => [array]
  | .call name args => name :: args.flatMap Argument.callNames
  | .template _ params => params.keys
  | .condition _ | .contextual _ | .expression _ | .custom _ _ => []

/-- The field that a call around a rule names. -/
def Scope.callNames : Scope → List String
  | .conditional _ target => [target]
  | .forEach array => [array]
  | .guarded _ field => [field]
  | .withDefault field _ => [field]

/-- The names in the call that a rule is, those of the rules below apart. -/
def Rule.callNames : Rule → List String
  | .atom a _ => a.callNames
  | .scope s _ _ => s.callNames
  | .junction _ _ _ => []

/-! ### Renaming -/

/-- The arguments are the same, or they name fields that go together. -/
inductive Argument.Renamed (N : String → String → Prop) : Argument → Argument → Prop where
  | same (a : Argument) : Renamed N a a
  | field {s t : String} (h : N s t) :
      Renamed N ⟨.string s, .fieldReference⟩ ⟨.string t, .fieldReference⟩

/-- The atoms differ in names of calls that go together.  Parameters of a template may come to have
one name. -/
inductive Atom.Renamed (N : String → String → Prop) : Atom → Atom → Prop where
  | same (a : Atom) : Renamed N a a
  | uniqueBy {array array' : String} (h : N array array') (key : String) :
      Renamed N (.uniqueBy array key) (.uniqueBy array' key)
  | length (bound : LengthBound) {array array' : String} (h : N array array') (limit : UInt64) :
      Renamed N (.length bound array limit) (.length bound array' limit)
  | call {name name' : String} {args args' : List Argument} (h : N name name')
      (hs : List.Forall₂ (Argument.Renamed N) args args') :
      Renamed N (.call name args) (.call name' args')
  | template (id : String) {params params' : List (String × Literal)}
      (hs : List.Forall₂ (fun p q => N p.1 q.1 ∧ p.2 = q.2) params params') :
      Renamed N (.template id (.ofList params)) (.template id (.ofList params'))

/-- The calls around a rule name fields that go together. -/
inductive Scope.Renamed (N : String → String → Prop) : Scope → Scope → Prop where
  | conditional (kind : Requirement) {target target' : String} (h : N target target') :
      Renamed N (.conditional kind target) (.conditional kind target')
  | forEach {array array' : String} (h : N array array') :
      Renamed N (.forEach array) (.forEach array')
  | guarded (guard : Guard) {field field' : String} (h : N field field') :
      Renamed N (.guarded guard field) (.guarded guard field')
  | withDefault {field field' : String} (h : N field field') (value : Literal) :
      Renamed N (.withDefault field value) (.withDefault field' value)

/-- The trees are the same but for names of calls that go together. -/
inductive Rule.Renamed (N : String → String → Prop) : Rule → Rule → Prop where
  | atom {a a' : Atom} (h : a.Renamed N a') (note : Option Metadata) :
      Renamed N (.atom a note) (.atom a' note)
  | scope {s s' : Scope} {r r' : Rule} (h : s.Renamed N s') (t : Renamed N r r')
      (note : Option Metadata) : Renamed N (.scope s r note) (.scope s' r' note)
  | junction (j : Junction) {rs rs' : List Rule} (ts : List.Forall₂ (Renamed N) rs rs')
      (note : Option Metadata) : Renamed N (.junction j rs note) (.junction j rs' note)

theorem Scope.Renamed.refl (hN : ∀ s, N s s) (s : Scope) : s.Renamed N s := by
  cases s with
  | conditional kind target => exact .conditional kind (hN target)
  | forEach array => exact .forEach (hN array)
  | guarded guard field => exact .guarded guard (hN field)
  | withDefault field value => exact .withDefault (hN field) value

/-- Where every name may be kept, so may the rule. -/
theorem Rule.Renamed.refl (hN : ∀ s, N s s) (r : Rule) : r.Renamed N r := by
  induction r using Rule.induction_children with
  | step r ih =>
      cases r with
      | atom a note => exact .atom (.same a) note
      | scope s r note => exact .scope (.refl hN s) (ih r (List.mem_singleton_self r)) note
      | junction j rs note => exact .junction j (List.forall₂_same.mpr ih) note

/-! ### Names that stand for themselves -/

theorem Argument.Renamed.eq {a b : Argument} (h : a.Renamed N b)
    (hn : ∀ s ∈ a.callNames, ∀ t, N s t → t = s) : b = a := by
  cases h with
  | same => rfl
  | field h => rw [hn _ (List.mem_singleton_self _) _ h]

/-- The keys of a list of entries are those of the map. -/
theorem KeyMap.mem_keys_ofList {α : Type} {l : List (String × α)} {e : String × α} (h : e ∈ l) :
    e.1 ∈ (KeyMap.ofList l).keys := by
  have kept (l : List (String × α)) (m : KeyMap α) {k : String} (h : m.contains k = true) :
      (l.foldl (fun m e => m.insert e.1 e.2) m).contains k = true := by
    induction l generalizing m with
    | nil => exact h
    | cons a l ih => exact ih _ (contains_insert h a.1 a.2)
  have added (l : List (String × α)) (m : KeyMap α) (he : e ∈ l) :
      (l.foldl (fun m e => m.insert e.1 e.2) m).contains e.1 = true := by
    induction l generalizing m with
    | nil => cases he
    | cons a l ih =>
        rcases List.mem_cons.mp he with rfl | he
        · refine kept l _ ?_
          rw [contains, get?_insert_self]
          rfl
        · exact ih _ he
  exact contains_iff_mem_keys.mp (added l empty h)

theorem Atom.Renamed.eq {a b : Atom} (h : a.Renamed N b)
    (hn : ∀ s ∈ a.callNames, ∀ t, N s t → t = s) : b = a := by
  cases h with
  | same => rfl
  | uniqueBy h key => rw [hn _ (List.mem_singleton_self _) _ h]
  | length bound h limit => rw [hn _ (List.mem_singleton_self _) _ h]
  | @call name name' args args' h hs =>
      have fields : args' = args := by
        have kept : ∀ a ∈ args, ∀ s ∈ a.callNames, ∀ t, N s t → t = s := fun a ha s hs =>
          hn s (List.mem_cons_of_mem _ (List.mem_flatMap.mpr ⟨a, ha, hs⟩))
        clear hn h
        induction hs with
        | nil => rfl
        | cons h hs ih =>
            obtain ⟨first, rest⟩ := List.forall_mem_cons.mp kept
            rw [h.eq first, ih rest]
      rw [hn _ List.mem_cons_self _ h, fields]
  | @template id params params' hs =>
      have same : params' = params := by
        have kept : ∀ p ∈ params, ∀ t, N p.1 t → t = p.1 := fun p hp =>
          hn p.1 (KeyMap.mem_keys_ofList hp)
        clear hn
        induction hs with
        | nil => rfl
        | cons h hs ih =>
            obtain ⟨first, rest⟩ := List.forall_mem_cons.mp kept
            rw [ih rest, Prod.ext (first _ h.1) h.2.symm]
      rw [same]

theorem Scope.Renamed.eq {s t : Scope} (h : s.Renamed N t)
    (hn : ∀ a ∈ s.callNames, ∀ b, N a b → b = a) : t = s := by
  cases h with
  | conditional kind h => rw [hn _ (List.mem_singleton_self _) _ h]
  | forEach h => rw [hn _ (List.mem_singleton_self _) _ h]
  | guarded guard h => rw [hn _ (List.mem_singleton_self _) _ h]
  | withDefault h value => rw [hn _ (List.mem_singleton_self _) _ h]

namespace Rule

/-- A rule whose names stand for themselves is renamed to itself. -/
theorem Renamed.eq {r q : Rule} (h : r.Renamed N q)
    (hn : ∀ p ∈ r.preorder, ∀ s ∈ p.callNames, ∀ t, N s t → t = s) : q = r := by
  induction r using induction_children generalizing q with
  | step r ih =>
      obtain ⟨here, below⟩ := forall_mem_preorder_iff.mp hn
      cases h with
      | atom h note => rw [h.eq here]
      | scope h t note =>
          rw [h.eq here, ih _ (List.mem_singleton_self _) t (below _ (List.mem_singleton_self _))]
      | @junction j rs rs' ts note =>
          have same : rs' = rs := by
            have each : ∀ r ∈ rs, ∀ q, r.Renamed N q → q = r := fun r hr q h =>
              ih r hr h (below r hr)
            clear below here ih hn
            induction ts with
            | nil => rfl
            | cons h ts ih =>
                obtain ⟨first, rest⟩ := List.forall_mem_cons.mp each
                rw [first _ h, ih rest]
          rw [same]

/-! ### Records -/

/-- An update of one list is one of the list that goes with it. -/
theorem updateAt_forall₂ {α β : Type} {R : α → β → Prop} {f : α → Option α} {g : β → Option β}
    (hf : ∀ a b a', R a b → f a = some a' → ∃ b', g b = some b' ∧ R a' b') {as : List α}
    {bs : List β} (h : List.Forall₂ R as bs) {i : Nat} {as' : List α}
    (hu : updateAt f as i = some as') : ∃ bs', updateAt g bs i = some bs' ∧ List.Forall₂ R as' bs' := by
  induction h generalizing i as' with
  | nil => cases hu
  | @cons a b as bs hab h ih =>
      cases i with
      | zero =>
          obtain ⟨a', ha, rfl⟩ := Option.map_eq_some_iff.mp hu
          obtain ⟨b', hb, hr⟩ := hf a b a' hab ha
          exact ⟨b' :: bs, by rw [updateAt, hb]; rfl, .cons hr h⟩
      | succ i =>
          obtain ⟨cs, hc, rfl⟩ := Option.map_eq_some_iff.mp hu
          obtain ⟨ds, hd, hr⟩ := ih hc
          exact ⟨b :: ds, by rw [updateAt, hd]; rfl, .cons hab hr⟩

/-- **Records go to the same places of a tree whose calls are renamed.** -/
theorem Renamed.annotate {r q r' : Rule} {n : Option Metadata} {path : List Nat}
    (h : r.Renamed N q) (ha : r.annotate n path = some r') :
    ∃ q', q.annotate n path = some q' ∧ r'.Renamed N q' := by
  induction path generalizing r q r' with
  | nil =>
      cases ha
      cases h with
      | atom h note => exact ⟨_, rfl, .atom h n⟩
      | scope h t note => exact ⟨_, rfl, .scope h t n⟩
      | junction j ts note => exact ⟨_, rfl, .junction j ts n⟩
  | cons i path ih =>
      cases h with
      | atom h note => cases ha
      | scope h t note =>
          rw [Rule.annotate] at ha ⊢
          split at ha
          · obtain ⟨b, hb, rfl⟩ := Option.map_eq_some_iff.mp ha
            obtain ⟨c, hc, renamed⟩ := ih t hb
            exact ⟨_, by rw [if_pos ‹_›, hc]; rfl, .scope h renamed note⟩
          · cases ha
      | junction j ts note =>
          obtain ⟨rs, hrs, rfl⟩ := Option.map_eq_some_iff.mp ha
          obtain ⟨qs, hqs, renamed⟩ := updateAt_forall₂ (fun _ _ _ => ih) ts hrs
          exact ⟨_, by rw [Rule.annotate, hqs]; rfl, .junction j renamed note⟩

end Rule

end Rulebook
