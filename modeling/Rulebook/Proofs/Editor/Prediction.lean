import Rulebook.Editor.Diagnosis
import Rulebook.Proofs.Editor.Invariant
import Rulebook.Proofs.Node.Walk

/-!
# Rulebook — Proofs — Editor — Prediction

What the findings about the nodes of a document, each looked at by itself, say about the rules that
its trees are.  The findings go by the names of the parts that a configuration lacks and by the
number of ids that a node of a store refers to; a conversion takes the parts out of the
configurations and goes down an embedded tree.

* `clean_nodeProblems_iff`: a node has no errors exactly if it has a head and as many children as
  that asks for.
* `exists_convert_grown_iff`: a tree is converted exactly if none of its vertices has an error.
* `exists_toRule_iff`: so is what is put together below an id, after any run of commands.
-/

namespace Rulebook

@[simp] theorem Diagnostic.isError_error (code : DiagnosticCode) (message : String)
    (node : Option String) : (error code message node).isError = true := rfl

@[simp] theorem Diagnostic.isError_warning (code : DiagnosticCode) (message : String)
    (node : Option String) : (warning code message node).isError = false := rfl

/-- What is given is neither missing nor empty. -/
theorem Config.isGiven_iff {value : Option String} :
    isGiven value = true ↔ ∃ s, value = some s ∧ s ≠ "" := by
  cases value <;> simp [isGiven]

/-! ### Conversions that succeed -/

/-- Any rules may stand below a head, as long as there are as many as it asks for. -/
theorem Rule.exists_of_head {h : Head} {rs : List Rule} (note : Option Metadata)
    (arity : ∀ k, h.config.arity = some k → rs.length = k) :
    ∃ r : Rule, r.head = h ∧ r.note = note ∧ r.children = rs := by
  rw [h.arity_config] at arity
  cases h with
  | atom a => exact ⟨.atom a note, rfl, rfl, (List.eq_nil_of_length_eq_zero (arity 0 rfl)).symm⟩
  | scope s =>
      obtain ⟨body, rfl⟩ := List.length_eq_one_iff.mp (arity 1 rfl)
      exact ⟨.scope s body note, rfl, rfl, rfl⟩
  | junction j => exact ⟨.junction j rs note, rfl, rfl, rfl⟩

/-- A conversion succeeds if nothing is wrong with the node and those of the children succeed. -/
theorem Node.exists_convert_iff {n : Node} : (∃ r, n.convert = .ok r) ↔
    n.checkEmbedded = .ok () ∧ n.checkArity = .ok () ∧ (∃ h, n.head = .ok h) ∧
      ∃ rs, convertEntries n.children = .ok rs := by
  constructor
  · rintro ⟨r, hr⟩
    obtain ⟨he, ha, hh, -, hrs⟩ := convert_eq_ok_iff.mp hr
    exact ⟨he, ha, ⟨r.head, hh⟩, ⟨r.children, hrs⟩⟩
  · rintro ⟨he, ha, ⟨h, hh⟩, rs, hrs⟩
    have mirrors := ((convertEntries_eq_ok_iff _ rs (checkEmbedded_ok_iff.mp he)).mp hrs).1
    have arity := checkArity_ok_iff.mp ha
    rw [(config_of_head hh).1, mirrors.length_eq] at arity
    obtain ⟨r, rfl, hn, rfl⟩ := Rule.exists_of_head n.note arity
    exact ⟨r, convert_eq_ok_iff.mpr ⟨he, ha, hh, hn.symm, hrs⟩⟩

namespace Editor

open Grove

variable {n : Node} {id : String} {above : Option String} {t : Branch} {ts : List Branch}

/-! ### Nodes -/

/-- There are no errors among findings. -/
def Clean (ds : List Diagnostic) : Prop := ∀ d ∈ ds, d.isError = false

/-- There is no error in findings put together exactly if there is none in either part. -/
theorem clean_append {ds es : List Diagnostic} : Clean (ds ++ es) ↔ Clean ds ∧ Clean es :=
  List.forall_mem_append

/-- Nothing is missing in a node exactly if all that its kind needs is given. -/
theorem clean_missingProblems_iff {c : Config} :
    Clean (missingProblems id c) ↔ ∀ part ∈ c.needed, part.2 = true := by
  simp [Clean, missingProblems, Config.missing]

/-- The number of children is right exactly if it is the one that the kind asks for, if any. -/
theorem clean_arityProblems_iff {c : Config} {children : Nat} :
    Clean (arityProblems id c children) ↔ ∀ k, c.arity = some k → children = k := by
  rw [arityProblems.eq_def]
  cases c <;> simp [Config.arity, Clean, @eq_comm Nat _ children]

/-- **A configuration without errors is what a head is made of.** -/
theorem exists_head_iff (id : String) : (∃ h, n.head = .ok h) ↔
    Clean (missingProblems id n.config) ∧ Clean (nameProblems id n.config) := by
  rw [clean_missingProblems_iff, Node.head]
  cases n.config <;>
    simp only [bind_eq_ok_iff, pure_eq_ok_iff, Node.needText_eq_ok_iff, Node.needPart_eq_ok_iff]
  case call name args =>
    -- only a name that is there can have a meaning of its own
    cases name with
    | none => simp [Config.needed, Config.isGiven]
    | some name =>
        cases hr : isReservedCall name <;>
          simp [Config.needed, Config.isGiven, nameProblems, hr, Clean, pure_eq_ok_iff]
  all_goals
    simp [Config.needed, Config.isGiven_iff, Option.isSome_iff_exists, nameProblems, Clean]

/-- **A node has no errors exactly if it has a head and as many children as that asks for.** -/
theorem clean_nodeProblems_iff :
    Clean (nodeProblems id n) ↔ n.checkArity = .ok () ∧ ∃ h, n.head = .ok h := by
  rw [nodeProblems, clean_append, clean_append, clean_arityProblems_iff, exists_head_iff id,
    Node.checkArity_ok_iff, and_right_comm, and_comm]

/-! ### Trees -/

/-- What is found about a node does not depend on whether its children are embedded. -/
theorem nodeProblems_grown (above : Option String) (t : Branch) :
    nodeProblems id (t.grown above) = nodeProblems id (t.node above) := by
  obtain ⟨v, cs⟩ := t
  simp [nodeProblems, Branch.grown, Branch.grownAll_eq_map, Branch.node]

/-- A tree is converted if its top has no errors and the trees below are converted. -/
theorem exists_convert_grown : (∃ r, (t.grown above).convert = .ok r) ↔
    Clean (nodeProblems t.id (t.node above)) ∧
      ∃ rs, Node.convertEntries (Branch.grownAll t.id t.children) = .ok rs := by
  have embedded : (t.grown above).checkEmbedded = .ok () := by
    rw [Node.checkEmbedded_ok_iff, Branch.grown_eq]
    simp
  have children : (t.grown above).children = Branch.grownAll t.id t.children := by
    rw [Branch.grown_eq, Branch.grownAll_eq_map]
  rw [Node.exists_convert_iff, ← nodeProblems_grown, clean_nodeProblems_iff, children, and_assoc]
  exact and_iff_right embedded

/-- Trees are converted exactly if none of their vertices has an error. -/
theorem exists_convertEntries_iff :
    (∃ rs, Node.convertEntries (Branch.grownAll id ts) = .ok rs) ↔
      ∀ e ∈ entries (some id) ts, Clean (nodeProblems e.1 e.2) := by
  induction ts using Grove.induction generalizing id with
  | nil => simp [Branch.grownAll, Node.convertEntries, pure_eq_ok_iff]
  | cons v cs ts ihc iht =>
      rw [entries_cons, List.forall_mem_cons, List.forall_mem_append, ← ihc, ← iht, ← and_assoc,
        ← exists_convert_grown, Branch.grownAll, Node.convertEntries]
      simp only [bind_eq_ok_iff, pure_eq_ok_iff]
      constructor
      · rintro ⟨_, r, hr, rs, hrs, -⟩
        exact ⟨⟨r, hr⟩, ⟨rs, hrs⟩⟩
      · rintro ⟨⟨r, hr⟩, ⟨rs, hrs⟩⟩
        exact ⟨_, r, hr, rs, hrs, rfl⟩

/-- **A tree is converted exactly if none of its vertices has an error.** -/
theorem exists_convert_grown_iff : (∃ r, (t.grown above).convert = .ok r) ↔
    ∀ e ∈ entries above [t], Clean (nodeProblems e.1 e.2) := by
  rw [exists_convert_grown, exists_convertEntries_iff, entries_cons, entries_nil, List.append_nil,
    List.forall_mem_cons]

/-! ### Documents -/

section

variable {d : Document} {q : Option String} (h : Stored ts d.nodes d.roots)
include h

/-- The tree of a place is put together from the store, if at all. -/
theorem build_place (ht : ⟨q, t⟩ ∈ places none ts) {tree : Node}
    (hb : d.nodes.build t.id = .ok tree) : tree = t.grown q ∧ tree.depth ≤ nestingLimit := by
  rw [Forest.build, h.get?_eq_some ht] at hb
  refine ⟨?_, (Forest.grows_of_materialize h.key hb).depth_le⟩
  simp only [Forest.materialize_eq nestingLimit [] t (h.entries_subset ht)
    (h.nodup.sublist (ids_sublist ht))] at hb
  cases hl : t.onLevel nestingLimit with
  | nil =>
      rw [hl] at hb
      exact (Except.ok.inj hb).symm
  | cons id ids =>
      rw [hl] at hb
      cases hb

/-- The entries of a subtree are those of the store with an id below its top. -/
theorem mem_entries_place (ht : ⟨q, t⟩ ∈ places none ts) {e : String × Node} :
    e ∈ entries q [t] ↔ e ∈ d.nodes.entries ∧ e.1 ∈ d.nodes.subtree t.id := by
  obtain ⟨p, n⟩ := e
  rw [(Document.subtree_of_place h ht).mem_iff, ← keys_entries q]
  constructor
  · exact fun he => ⟨h.entries_subset ht he, List.mem_map_of_mem he⟩
  · rintro ⟨he, hp⟩
    -- the store has one node only under an id
    obtain ⟨⟨p, m⟩, hm, rfl⟩ := List.mem_map.mp hp
    have same : d.nodes.get? p = some n := KeyMap.get?_eq_some_iff.mpr he
    rw [KeyMap.get?_eq_some_iff.mpr (h.entries_subset ht hm)] at same
    exact Option.some.inj same ▸ hm

/-- **A tree that is put together is a rule exactly if no node below its top has an error.** -/
theorem exists_toRule_iff_clean (root : String) {tree : Node}
    (hb : d.nodes.build root = .ok tree) : (∃ r, tree.toRule = .ok r) ↔
      ∀ e ∈ d.nodes.entries, e.1 ∈ d.nodes.subtree root → Clean (nodeProblems e.1 e.2) := by
  obtain ⟨top, htop⟩ : ∃ top, d.nodes.get? root = some top := by
    cases hroot : d.nodes.get? root with
    | none =>
        rw [Forest.build, hroot] at hb
        cases hb
    | some top => exact ⟨top, rfl⟩
  obtain ⟨q, t, ht, rfl, -⟩ := h.get?_eq_some_iff.mp htop
  obtain ⟨rfl, shallow⟩ := build_place h ht hb
  rw [Node.toRule, if_neg (Nat.not_lt.mpr shallow), exists_convert_grown_iff]
  simp only [mem_entries_place h ht, and_imp]

end

/-- **The findings about the nodes of a document predict what its trees are.**  After any run of
commands, the tree that is put together below a root, or below any other node, is a rule exactly if
no node of the root's subtree has an error by itself. -/
theorem exists_toRule_iff (settings : Settings) (commands : List Command) (root : String)
    (tree : Node) :
    let nodes := ((new settings).run commands).document.nodes
    nodes.build root = .ok tree →
      ((∃ r, tree.toRule = .ok r) ↔
        ∀ e ∈ nodes.entries, e.1 ∈ nodes.subtree root →
          ∀ d ∈ nodeProblems e.1 e.2, d.isError = false) := by
  obtain ⟨ts, stored⟩ := (sound_run (sound_new settings) commands).document.stored
  exact exists_toRule_iff_clean stored root

/-- Commands that add two roots: one with a comparison and an empty group below it, and one with a
requirement that has nothing below it. -/
def drafts : List Command :=
  [.add (some "done") ⟨none, none, .group .or⟩ none,
    .add (some "adult") ⟨none, none,
      .fieldCondition (some "age") (some .lessThan) (some (.int 18))⟩ (some "done"),
    .add (some "empty") ⟨none, none, .group .and⟩ (some "done"),
    .add (some "open") ⟨none, none, .group .and⟩ none,
    .add (some "required") ⟨none, none, .conditional .requiredIf (some "name")⟩ (some "open")]

/-- The one root is a rule, although there is a warning about the empty group, and the other one is
none. -/
theorem exists_toRule_iff_drafts :
    let nodes := ((new ⟨false, false, 1, .standard⟩).run drafts).document.nodes
    (∃ tree, nodes.build "done" = .ok tree ∧ ∃ r, tree.toRule = .ok r) ∧
      ∃ tree, nodes.build "open" = .ok tree ∧ ¬∃ r, tree.toRule = .ok r := by
  intro nodes
  refine ⟨⟨_, rfl, (exists_toRule_iff ⟨false, false, 1, .standard⟩ drafts "done" _ rfl).mpr ?_⟩,
    ⟨_, rfl, (exists_toRule_iff ⟨false, false, 1, .standard⟩ drafts "open" _ rfl).not.mpr ?_⟩⟩
  · decide +kernel
  · decide +kernel

end Editor

end Rulebook
