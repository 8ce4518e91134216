import Rulebook.Proofs.Dsl.Literals
import Rulebook.Proofs.Node.Convert
import Rulebook.Proofs.Rule.Codec

/-!
# Rulebook — Proofs — Rule — Names

The names in a rule, by what they stand for: fields, references to fields, functions and parameters
of templates.  A head is *named* if each of them is a name in the sense of its place (`Head.Named`).
Both ways out of a rule depend on little else: a rule is written if it has few enough levels, its
heads are named and its numbers are finite, and nodes hold a rule with named heads if none of the
texts in it is empty.

* `check_ok_iff`: the check in front of the printer, over every rule of the tree.
* `print_ok_iff`: what can be written, whatever the layout.
* `checkDrawable_of_named`: what nodes can hold of a rule with named heads.
-/

namespace Rulebook

/-! ### Names in a head -/

namespace Head

/-- The fields that a head is about. -/
def fields : Head → List String
  | .atom (.condition c) => [c.field]
  | .atom (.uniqueBy array _) => [array]
  | .atom (.length _ array _) => [array]
  | .scope (.conditional _ target) => [target]
  | .scope (.forEach array) => [array]
  | .scope (.guarded _ field) => [field]
  | .scope (.withDefault field _) => [field]
  | _ => []

/-- The values that may stand for a field: the right-hand side of a condition, and arguments. -/
def operands : Head → List Argument
  | .atom (.condition c) => [⟨c.value, c.kind⟩]
  | .atom (.call _ args) => args
  | _ => []

/-- The values that do stand for a field. -/
def references (h : Head) : List Literal :=
  (h.operands.filter fun a => a.kind = .fieldReference).map Argument.value

/-- The function that a head calls. -/
def function? : Head → Option String
  | .atom (.call name _) => some name
  | _ => none

/-- The parameters that a head gives to a template. -/
def parameters : Head → List String
  | .atom (.template _ params) => params.entries.map Prod.fst
  | _ => []

/-- The texts in a head that a node cannot do without: the key of a `uniqueBy`, the source of a
contextual template or of an expression, the id of a template, and a custom kind. -/
def texts : Head → List String
  | .atom (.uniqueBy _ key) => [key]
  | .atom (.contextual source) => [source]
  | .atom (.expression source) => [source]
  | .atom (.template id _) => [id]
  | .atom (.custom name _) => [name]
  | _ => []

/-- Every name in a head is one: a function is none of the reserved calls, and what stands for a
field is a string. -/
structure Named (h : Head) : Prop where
  fields : ∀ s ∈ h.fields, isName s = true
  references : ∀ v ∈ h.references, ∃ s, v = .string s ∧ isName s = true
  function : ∀ s ∈ h.function?, isName s = true ∧ isReservedCall s = false
  parameters : ∀ s ∈ h.parameters, isName s = true

/-- A head is named exactly if its fields, references, function and parameters are. -/
theorem named_iff {h : Head} : h.Named ↔ (∀ s ∈ h.fields, isName s = true) ∧
    (∀ v ∈ h.references, ∃ s, v = .string s ∧ isName s = true) ∧
    (∀ s ∈ h.function?, isName s = true ∧ isReservedCall s = false) ∧
    ∀ s ∈ h.parameters, isName s = true :=
  ⟨fun ⟨hf, hr, hc, hp⟩ => ⟨hf, hr, hc, hp⟩, fun ⟨hf, hr, hc, hp⟩ => ⟨hf, hr, hc, hp⟩⟩

/-- A head with a single name in it, that of a field. -/
theorem named_of_field {h : Head} {f : String} (hf : isName f = true) (e : h.fields = [f])
    (ho : h.operands = []) (hc : h.function? = none) (hp : h.parameters = []) : h.Named :=
  ⟨by rwa [e, List.forall_mem_singleton], by simp [references, ho], by simp [hc], by simp [hp]⟩

/-- Every number in a head is finite. -/
abbrev Finite (h : Head) : Prop := ∀ v ∈ h.literals, v.isRenderable = true

theorem named_junction (j : Junction) : (junction j).Named :=
  ⟨nofun, nofun, nofun, nofun⟩

end Head

/-! ### What can be written -/

namespace Literal

variable {v : Literal} {kind : OperandKind}

/-- A literal passes the check exactly if it is finite. -/
theorem check_ok_iff : v.check = .ok () ↔ v.isRenderable = true := by
  cases v with
  | float x =>
      rw [check, isRenderable]
      split <;> simp_all
  | _ => simp [check, isRenderable]

/-- A reference passes the check exactly if it is a name. -/
theorem checkReference_ok_iff :
    v.checkReference = .ok () ↔ ∃ s, v = .string s ∧ isName s = true :=
  ⟨Dsl.exists_field_of_checkReference, fun ⟨_, e, hs⟩ => e ▸ if_pos hs⟩

/-- An operand passes the check exactly if it is finite, and a name if it refers to a field. -/
theorem checkOperand_ok_iff : v.checkOperand kind = .ok () ↔
    (kind = .fieldReference → ∃ s, v = .string s ∧ isName s = true) ∧ v.isRenderable = true := by
  cases kind with
  | literal => simp [checkOperand, check_ok_iff]
  | fieldReference =>
      rw [checkOperand, checkReference_ok_iff]
      constructor
      · rintro ⟨s, rfl, hs⟩
        exact ⟨fun _ => ⟨s, rfl, hs⟩, rfl⟩
      · exact fun h => h.1 rfl

end Literal

namespace Head

variable {h : Head}

/-- Operands pass the check exactly if their references are names and their values finite. -/
theorem operands_ok_iff : (∀ a ∈ h.operands, a.value.checkOperand a.kind = .ok ()) ↔
    (∀ v ∈ h.references, ∃ s, v = .string s ∧ isName s = true) ∧
      ∀ v ∈ h.operands.map Argument.value, v.isRenderable = true := by
  simp only [Literal.checkOperand_ok_iff, references, List.forall_mem_map, List.mem_filter,
    decide_eq_true_eq, and_imp, forall_and]

end Head

namespace Atom

/-- A condition passes the check exactly if its field is a name and its operand passes. -/
theorem check_condition_iff {c : Condition} : (condition c).check = .ok () ↔
    isName c.field = true ∧ c.value.checkOperand c.kind = .ok () :=
  ⟨check_condition, fun h => ok_andThen_iff.mpr ⟨checkName_ok_iff.mpr h.1, h.2⟩⟩

/-- A call passes the check exactly if its name is one that is not reserved and its arguments pass.
-/
theorem check_call_iff {name : String} {args : List Argument} : (call name args).check = .ok () ↔
    (isName name = true ∧ isReservedCall name = false) ∧
      ∀ a ∈ args, a.value.checkOperand a.kind = .ok () := by
  constructor
  · intro h
    obtain ⟨hn, hr, has⟩ := check_call h
    exact ⟨⟨hn, hr⟩, has⟩
  · rintro ⟨⟨hn, hr⟩, has⟩
    rw [check, if_pos (by simp [hn, hr])]
    exact forM_ok_iff.mpr has

/-- A template passes the check exactly if its parameters are names and their values finite. -/
theorem check_template_iff {id : String} {params : KeyMap Literal} :
    (template id params).check = .ok () ↔ (∀ s ∈ params.entries.map Prod.fst, isName s = true) ∧
      ∀ v ∈ params.entries.map Prod.snd, v.isRenderable = true := by
  simp only [check, forM_ok_iff, ok_andThen_iff, checkName_ok_iff, Literal.check_ok_iff,
    List.forall_mem_map, ← forall₂_and]

/-- An atom is written if it is named and its numbers are finite. -/
theorem check_ok_iff {a : Atom} :
    a.check = .ok () ↔ (Head.atom a).Named ∧ (Head.atom a).Finite := by
  rw [Head.named_iff]
  cases a with
  | condition c =>
      have value : c.value.checkOperand c.kind = .ok () ↔ _ :=
        List.forall_mem_singleton (p := fun a : Argument => a.value.checkOperand a.kind = .ok ())
          (a := ⟨c.value, c.kind⟩) |>.symm.trans (Head.operands_ok_iff (h := .atom (.condition c)))
      rw [check_condition_iff, value]
      simp [Head.fields, Head.function?, Head.parameters, Head.Finite, Head.literals,
        Head.operands, and_assoc]
  | call name args =>
      have values : (∀ a ∈ args, a.value.checkOperand a.kind = .ok ()) ↔ _ :=
        Head.operands_ok_iff (h := .atom (.call name args))
      rw [check_call_iff, values]
      simp [Head.fields, Head.function?, Head.parameters, Head.Finite, Head.literals,
        Head.operands, and_assoc, and_left_comm]
  | template id params =>
      rw [check_template_iff]
      simp [Head.fields, Head.references, Head.operands, Head.function?, Head.parameters,
        Head.Finite, Head.literals]
  | _ =>
      simp [check, checkName_ok_iff, Head.fields, Head.references, Head.operands, Head.function?,
        Head.parameters, Head.Finite, Head.literals]

end Atom

/-- A scope is written, the rule inside apart, if it is named and its numbers are finite. -/
theorem Scope.check_ok_iff {s : Scope} :
    s.check = .ok () ↔ (Head.scope s).Named ∧ (Head.scope s).Finite := by
  rw [Head.named_iff]
  cases s <;>
    simp [check, ok_andThen_iff, checkName_ok_iff, Literal.check_ok_iff, Head.fields,
      Head.references, Head.operands, Head.function?, Head.parameters, Head.Finite, Head.literals]

namespace Rule

variable {r : Rule}

/-- A rule is written, levels apart, if its head is and the rules below are. -/
theorem check_ok_iff_children : r.check = .ok () ↔
    (r.head.Named ∧ r.head.Finite) ∧ ∀ c ∈ r.children, c.check = .ok () := by
  cases r with
  | atom a note => simp [check, Atom.check_ok_iff, head, children]
  | scope s body note => simp [check, ok_andThen_iff, Scope.check_ok_iff, head, children]
  | junction j members note =>
      rw [check, checkAll_ok_iff, head, children]
      exact (and_iff_right ⟨Head.named_junction j, List.forall_mem_nil _⟩).symm

/-- **The check in front of the printer asks for named heads and finite numbers**, at every rule of
the tree. -/
theorem check_ok_iff : r.check = .ok () ↔ (∀ q ∈ r.preorder, q.head.Named) ∧ r.Finite := by
  rw [Finite, ← forall₂_and]
  induction r using induction_children with
  | step r ih =>
      rw [check_ok_iff_children, forall_mem_preorder_iff]
      exact and_congr_right fun _ => forall₂_congr ih

end Rule

/-- **What can be written**: rules of admissible depth with named heads and finite numbers.  The
layout makes no difference. -/
theorem Dsl.print_ok_iff (r : Rule) (o : Layout) :
    ((∃ text, print r o = .ok text) ↔
      r.depth ≤ nestingLimit ∧ (∀ q ∈ r.preorder, q.head.Named) ∧ r.Finite) ∧
    ∀ p : Layout, (∃ text, print r o = .ok text) ↔ ∃ text, print r p = .ok text := by
  have written (o : Layout) : (∃ text, print r o = .ok text) ↔
      r.depth ≤ nestingLimit ∧ (∀ q ∈ r.preorder, q.head.Named) ∧ r.Finite := by
    rw [← Rule.check_ok_iff]
    constructor
    · rintro ⟨text, ht⟩
      obtain ⟨hd, hc, -⟩ := print_eq_ok_iff.mp ht
      exact ⟨hd, hc⟩
    · rintro ⟨hd, hc⟩
      exact ⟨_, print_eq_ok_iff.mpr ⟨hd, hc, rfl⟩⟩
  exact ⟨written o, fun p => (written o).trans (written p).symm⟩

/-! ### What nodes can hold -/

theorem ne_empty_of_isName {s : String} (h : isName s = true) : s ≠ "" := by
  rintro rfl
  cases h

namespace Head

variable {h : Head}

/-- The check of a named head in front of drawing asks only for its texts. -/
theorem check_ok_iff (hn : h.Named) : h.check = .ok () ↔ ∀ s ∈ h.texts, s ≠ "" := by
  have field : ∀ s ∈ h.fields, s ≠ "" := fun s hs => ne_empty_of_isName (hn.fields s hs)
  cases h with
  | atom a =>
      cases a with
      | condition c =>
          have reference (hk : c.kind = .fieldReference) : ∃ s, c.value = .string s ∧ s ≠ "" := by
            obtain ⟨s, e, hs⟩ := hn.references c.value (by simp [references, operands, hk])
            exact ⟨s, e, ne_empty_of_isName hs⟩
          rw [check_condition_iff]
          exact ⟨fun _ => List.forall_mem_nil _, fun _ => ⟨reference, field c.field List.mem_cons_self⟩⟩
      | call name args =>
          obtain ⟨hf, hr⟩ := hn.function name rfl
          rw [check_call_iff]
          exact ⟨fun _ => List.forall_mem_nil _, fun _ => ⟨hr, ne_empty_of_isName hf⟩⟩
      | uniqueBy array key =>
          rw [check, ok_andThen_iff, checkName_eq_ok_iff, checkName_eq_ok_iff, texts,
            List.forall_mem_singleton]
          exact and_iff_right (field array List.mem_cons_self)
      | length bound array limit =>
          rw [check, checkName_eq_ok_iff]
          exact ⟨fun _ => List.forall_mem_nil _, fun _ => field array List.mem_cons_self⟩
      | _ => rw [check, checkName_eq_ok_iff, texts, List.forall_mem_singleton]
  | scope s =>
      cases s <;> rw [check, checkName_eq_ok_iff] <;>
        exact ⟨fun _ => List.forall_mem_nil _, fun _ => field _ List.mem_cons_self⟩
  | junction j => exact ⟨fun _ => List.forall_mem_nil _, fun _ => rfl⟩

/-- A name that is refused is empty. -/
theorem exists_emptyName_of_checkName {what name : String} {e : ConversionError}
    (h : checkName what name = .error e) : ∃ what, e = .emptyName what := by
  rw [checkName] at h
  split at h
  · cases h
    exact ⟨what, rfl⟩
  · cases h

/-- The only complaint about a named head is that a text in it is empty. -/
theorem exists_emptyName (hn : h.Named) {e : ConversionError} (he : h.check = .error e) :
    ∃ what, e = .emptyName what := by
  cases h with
  | atom a =>
      cases a with
      | condition c =>
          rw [(check_ok_iff hn).mpr (List.forall_mem_nil _)] at he
          cases he
      | call name args =>
          rw [(check_ok_iff hn).mpr (List.forall_mem_nil _)] at he
          cases he
      | uniqueBy array key =>
          rcases andThen_error_iff.mp he with he | ⟨-, he⟩
          · exact exists_emptyName_of_checkName he
          · exact exists_emptyName_of_checkName he
      | _ => exact exists_emptyName_of_checkName he
  | scope s => cases s <;> exact exists_emptyName_of_checkName he
  | junction j => cases he

end Head

namespace Rule

variable {r : Rule}

theorem checkNodes_eq (r : Rule) :
    r.checkNodes = (do r.head.check; checkNodesAll r.children) := by
  cases r with
  | atom a note =>
      show _ = (do (Head.atom a).check; Except.ok ())
      rw [checkNodes]
      cases (Head.atom a).check <;> rfl
  | scope s body note =>
      show _ = (do (Head.scope s).check; checkNodes body; Except.ok ())
      rw [checkNodes]
      cases checkNodes body <;> rfl
  | junction j members note => rfl

/-- Every node of a rule passes its check exactly if every head in it does. -/
theorem checkNodes_ok_iff_preorder :
    r.checkNodes = .ok () ↔ ∀ q ∈ r.preorder, q.head.check = .ok () := by
  induction r using induction_children with
  | step r ih =>
      rw [checkNodes_ok_iff, checkNodesAll_ok_iff, forall_mem_preorder_iff]
      exact and_congr_right fun _ => forall₂_congr ih

/-- The nodes of several rules fail as those of one of them do. -/
theorem exists_of_checkNodesAll_error {rs : List Rule} {e : ConversionError}
    (h : checkNodesAll rs = .error e) : ∃ r ∈ rs, r.checkNodes = .error e := by
  induction rs with
  | nil => cases h
  | cons r rs ih =>
      rcases andThen_error_iff.mp h with h | ⟨-, h⟩
      · exact ⟨r, List.mem_cons_self, h⟩
      · obtain ⟨q, hq, h⟩ := ih h
        exact ⟨q, List.mem_cons_of_mem r hq, h⟩

/-- What nodes cannot hold of a rule is found at one of the heads. -/
theorem exists_head_of_checkNodes_error {e : ConversionError} (h : r.checkNodes = .error e) :
    ∃ q ∈ r.preorder, q.head.check = .error e := by
  induction r using induction_children with
  | step r ih =>
      rw [checkNodes_eq] at h
      rcases andThen_error_iff.mp h with h | ⟨-, h⟩
      · exact ⟨r, mem_preorder_self r, h⟩
      · obtain ⟨c, hc, h⟩ := exists_of_checkNodesAll_error h
        obtain ⟨q, hq, h⟩ := ih c hc h
        rw [preorder_eq]
        exact ⟨q, List.mem_cons_of_mem r (preorder_subset_preorderAll hc q hq), h⟩

/-- The texts in a rule that nodes cannot do without. -/
def texts (r : Rule) : List String := r.preorder.flatMap fun q => q.head.texts

/-- No text of a rule is empty exactly if none of a head in it is. -/
theorem empty_notMem_texts_iff : "" ∉ r.texts ↔ ∀ q ∈ r.preorder, ∀ s ∈ q.head.texts, s ≠ "" := by
  simp only [texts, List.mem_flatMap, not_exists, not_and, ne_eq, List.forall_mem_ne']

/-- **Nodes hold a rule with named heads** unless it has too many levels or one of its texts is
empty. -/
theorem checkDrawable_of_named (named : ∀ q ∈ r.preorder, q.head.Named) :
    (nestingLimit < r.depth ∧ r.checkDrawable = .error (.tooDeep r.depth)) ∨
      (r.depth ≤ nestingLimit ∧ "" ∈ r.texts ∧
        ∃ what, r.checkDrawable = .error (.emptyName what)) ∨
      (r.depth ≤ nestingLimit ∧ "" ∉ r.texts ∧ r.checkDrawable = .ok ()) := by
  by_cases deep : nestingLimit < r.depth
  · exact .inl ⟨deep, if_pos deep⟩
  have shallow : r.depth ≤ nestingLimit := Nat.le_of_not_lt deep
  have drawable : r.checkDrawable = r.checkNodes := if_neg deep
  have held : r.checkNodes = .ok () ↔ "" ∉ r.texts := by
    rw [checkNodes_ok_iff_preorder, empty_notMem_texts_iff]
    exact forall₂_congr fun q hq => Head.check_ok_iff (named q hq)
  rw [drawable]
  cases hc : r.checkNodes with
  | ok u => exact .inr (.inr ⟨shallow, held.mp hc, rfl⟩)
  | error e =>
      obtain ⟨q, hq, he⟩ := exists_head_of_checkNodes_error hc
      obtain ⟨what, rfl⟩ := Head.exists_emptyName (named q hq) he
      refine .inr (.inl ⟨shallow, ?_, what, rfl⟩)
      by_contra full
      rw [held.mpr full] at hc
      cases hc

end Rule

end Rulebook
