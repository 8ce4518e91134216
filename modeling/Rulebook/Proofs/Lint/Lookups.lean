import Rulebook.Proofs.Lint.Conditions

/-!
# Rulebook — Proofs — Lint — Lookups

What the linter asks of a schema.  It looks up the fields that the conditions of a rule name, and
nothing else, so that the findings are the same for schemas that say the same of these fields
(`lint_congr`).  A finite schema therefore stands for any function from fields to what is known
about them: whatever fields are looked up, there is one that gives the same answers
(`exists_schema`).
-/

namespace Rulebook.Lint

/-- The fields that a condition names: its own, and the one that it is compared with. -/
def fieldsOf (cond : Condition) : List String :=
  cond.field ::
    match cond.kind, cond.value with
    | .fieldReference, .string other => [other]
    | _, _ => []

variable {a b : Schema}

/-- The schemas say the same of the fields of a condition. -/
def AgreesOn (a b : Schema) (cond : Condition) : Prop :=
  ∀ field ∈ fieldsOf cond, a.lookup field = b.lookup field

/-! ### Rules -/

section

variable {text : List Char} {offsets : List Nat}

/-- A condition is checked alike by schemas that agree on its fields. -/
theorem checkCondition_congr {cond : Condition} (h : AgreesOn a b cond) (index : Nat) :
    Context.checkCondition ⟨text, offsets, some a⟩ index cond =
      Context.checkCondition ⟨text, offsets, some b⟩ index cond := by
  obtain ⟨field, comparison, value, kind⟩ := cond
  obtain ⟨own, others⟩ := List.forall_mem_cons.mp h
  have own : a.lookup field = b.lookup field := own
  simp only [Context.checkCondition, own]
  refine congrArg (_ ++ ·) ?_
  -- only a reference to a field on the right is looked up
  cases kind with
  | literal => rfl
  | fieldReference =>
      cases value with
      | string other =>
          have other : a.lookup other = b.lookup other :=
            others other (List.mem_singleton_self other)
          dsimp only
          rw [other]
          rfl
      | _ => rfl

mutual

/-- A rule is checked by the look-ups of the fields of its conditions. -/
theorem checkRule_congr (index : Nat) : ∀ r : Rule, (∀ cond ∈ conditions r, AgreesOn a b cond) →
    checkRule ⟨text, offsets, some a⟩ index r = checkRule ⟨text, offsets, some b⟩ index r
  | .atom atom _, h => by
      cases atom with
      | condition cond =>
          have agrees := h cond (List.mem_singleton_self cond)
          exact congrArg (·, index + 1) (checkCondition_congr agrees index)
      | _ => rfl
  | .scope _ body _, h => checkRule_congr index body h
  | .junction j members _, h => by
      rw [conditions_junction] at h
      exact checkMembers_congr (isGroup j) [] index members h

/-- Members are checked alike by schemas that agree on the fields of their conditions. -/
theorem checkMembers_congr (inGroup : Bool) (seen : List Condition) (index : Nat) :
    ∀ rs : List Rule, (∀ cond ∈ rs.flatMap conditions, AgreesOn a b cond) →
      checkMembers ⟨text, offsets, some a⟩ inGroup seen index rs =
        checkMembers ⟨text, offsets, some b⟩ inGroup seen index rs
  | [], _ => rfl
  | r :: rs, h => by
      rw [List.flatMap_cons, List.forall_mem_append] at h
      simp only [checkMembers, checkRule_congr index r h.1, checkMembers_congr inGroup _ _ rs h.2]
      rfl

end

end

/-! ### Texts -/

/-- **The findings about a text depend on a schema only by what it says of the fields that the
conditions of the text name.** -/
theorem lint_congr (s : Settings) {text : String} (h : ∀ r, Dsl.parse text = .ok (some r) →
    ∀ cond ∈ conditions r, AgreesOn a b cond) : lint s (some a) text = lint s (some b) text := by
  have same : findings s (some a) text.toList = findings s (some b) text.toList := by
    cases hr : Dsl.read text.toList with
    | error e => simp only [findings, hr]
    | ok o =>
        cases o with
        | none => simp only [findings, hr]
        | some r => simp only [findings, hr, checkRule_congr 0 r (h r hr)]
  rw [lint, lint, same]

/-- **Whatever is known about fields, a schema knows it of any number of them.** -/
theorem exists_schema (lookup : String → Option FieldInfo) (fields : List String) :
    ∃ schema : Schema, ∀ field ∈ fields, schema.lookup field = lookup field := by
  induction fields with
  | nil => exact ⟨.empty, List.forall_mem_nil _⟩
  | cons field fields ih =>
      obtain ⟨schema, hs⟩ := ih
      cases hf : lookup field with
      | none =>
          refine ⟨⟨schema.fields.erase field⟩, fun other ho => ?_⟩
          by_cases e : other = field
          · rw [e, hf]
            exact KeyMap.get?_erase_self schema.fields field
          · have among := List.mem_of_ne_of_mem e ho
            exact (KeyMap.get?_erase_of_ne schema.fields e).trans (hs other among)
      | some info =>
          refine ⟨schema.declare field info, fun other ho => ?_⟩
          by_cases e : other = field
          · rw [e, hf]
            exact KeyMap.get?_insert_self schema.fields field info
          · exact (KeyMap.get?_insert_of_ne schema.fields e info).trans
              (hs other (List.mem_of_ne_of_mem e ho))

end Rulebook.Lint
