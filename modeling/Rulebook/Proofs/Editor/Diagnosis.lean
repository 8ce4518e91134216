import Rulebook.Proofs.Editor.Refinement
import Rulebook.Proofs.Node.Build

/-!
# Rulebook — Proofs — Editor — Diagnosis

What a validation without errors says about writing the document.  Every root whose tree has at
most as many levels as may be built is converted and written, and its text is the one that was
found.  A tree with more levels is not built at all, and of that the validation says nothing.

* `writes_diagnoseRoot`: one root without errors is written, or is too deep.
* `write_of_no_errors`: so is the document, after any run of commands.
* `write_of_no_errors_chain`: a chain of negations with one level too many has no findings, and is
  not written.
-/

namespace Rulebook

open Transfer

namespace Editor

variable {s : Settings} {nodes : Forest} {t : Branch}

/-- The rule and the text of a root, or the first vertex on the level that is one too many. -/
def Writes (s : Settings) (nodes : Forest) (t : Branch) : Prop :=
  match t.onLevel nestingLimit with
  | [] => ∃ r text, ruleBelow nodes t.id = .ok r ∧ textOf s.roundTrip.layout r = .ok text ∧
      (diagnoseRoot s nodes t.id).texts = [text]
  | id :: _ => ruleBelow nodes t.id = .error (.structural (.tooDeep id))  ∧
      (diagnoseRoot s nodes t.id).texts = []

/-- A root without errors is written, or is too deep. -/
theorem writes_diagnoseRoot {ts : List Branch} {roots : List String}
    (h : Stored ts nodes roots) (ht : t ∈ ts)
    (clean : ∀ d ∈ (diagnoseRoot s nodes t.id).diagnostics, d.isError = false) :
    Writes s nodes t := by
  have hb := h.build_eq ht
  rw [Writes]
  cases hl : t.onLevel nestingLimit with
  | cons id ids =>
      rw [hl] at hb
      exact ⟨by rw [ruleBelow, hb]; rfl, by rw [diagnoseRoot, hb]; rfl⟩
  | nil =>
      rw [hl] at hb
      have hb' : nodes.build t.id = .ok (t.grown none) := hb
      rw [diagnoseRoot, hb'] at clean
      cases hg : generate s.roundTrip.layout (t.grown none) with
      | error e =>
          simp only [hg] at clean
          have := clean _ List.mem_cons_self
          cases this
      | ok text =>
          rw [generate] at hg
          cases hr : (t.grown none).toRule with
          | error e => rw [hr] at hg; cases hg
          | ok r =>
              rw [hr] at hg
              refine ⟨r, text, ?_, hg, ?_⟩
              · rw [ruleBelow, hb']
                simp only [hr]
              · rw [diagnoseRoot, hb']
                simp only [generate, hr, hg]

/-- The rules and the texts of several roots, or the first vertex that is on a level too many. -/
theorem mapM_of_writes {ts : List Branch} (h : ∀ t ∈ ts, Writes s nodes t) :
    match ts.flatMap (Branch.onLevel nestingLimit) with
    | [] => ∃ rs, (ts.map Branch.id).mapM (ruleBelow nodes) = .ok rs ∧
        rs.mapM (textOf s.roundTrip.layout) =
          .ok ((ts.map Branch.id).flatMap fun id => (diagnoseRoot s nodes id).texts)
    | id :: _ => (ts.map Branch.id).mapM (ruleBelow nodes) = .error (.structural (.tooDeep id)) := by
  induction ts with
  | nil => exact ⟨[], rfl, rfl⟩
  | cons t ts ih =>
      obtain ⟨ht, hts⟩ := List.forall_mem_cons.mp h
      have ih := ih hts
      rw [Writes] at ht
      rw [List.flatMap_cons, List.map_cons, List.mapM_cons]
      cases hl : t.onLevel nestingLimit with
      | cons id ids =>
          rw [hl] at ht
          rw [List.cons_append, ht.1]
          rfl
      | nil =>
          rw [hl] at ht
          obtain ⟨r, text, hr, htext, hfound⟩ := ht
          rw [List.nil_append, hr]
          cases hls : ts.flatMap (Branch.onLevel nestingLimit) with
          | cons id ids =>
              rw [hls] at ih
              simp only [ih]
              rfl
          | nil =>
              rw [hls] at ih
              obtain ⟨rs, hrs, htexts⟩ := ih
              refine ⟨r :: rs, by rw [hrs]; rfl, ?_⟩
              rw [List.mapM_cons, htext, htexts, List.flatMap_cons, hfound]
              rfl

/-- A validation keeps what it found. -/
theorem found_validate (e : Editor) :
    e.validate.diagnostics = (diagnose e.settings e.document).diagnostics ∧
      e.validate.text = (diagnose e.settings e.document).text := by
  simp only [validate, emit]
  split
  · exact ⟨rfl, rfl⟩
  · rw [enter]
    split <;> exact ⟨rfl, rfl⟩

/-- **An export fails only for a chain that is too deep**, if nothing is found fault with; the first
node below the limit is the one that it names. -/
theorem Sound.write_of_clean {e : Editor} (h : e.Sound)
    (clean : ∀ d ∈ e.validate.diagnostics, d.isError = false) :
    match e.grove.flatMap (Branch.onLevel nestingLimit) with
    | [] => e.write .dsl = .ok e.validate.text ∧ ∃ text, e.write .json = .ok text
    | id :: _ => ∀ format, e.write format = .error (.structural (.tooDeep id)) := by
  have hs := h.refines.stored
  obtain ⟨hfound, htext⟩ := found_validate e
  rw [hfound, diagnose] at clean
  have written := mapM_of_writes (s := e.settings) fun t ht => writes_diagnoseRoot hs ht
    fun d hd => clean d (List.mem_append_right _ (List.mem_flatMap.mpr
      ⟨_, List.mem_map_of_mem (hs.roots_eq ▸ List.mem_map_of_mem ht), hd⟩))
  rw [← hs.roots_eq] at written
  cases hl : e.grove.flatMap (Branch.onLevel nestingLimit) with
  | nil =>
      rw [hl] at written
      obtain ⟨rs, hrs, htexts⟩ := written
      have hrules : rulesIn e.document = .ok rs := hrs
      refine ⟨?_, ?_⟩
      · rw [Editor.write, Transfer.write, hrules]
        simp only [bind, Except.bind, htexts]
        rw [htext, Diagnosis.text, diagnose, List.flatMap_map]
        rfl
      · rw [Editor.write, Transfer.write, hrules]
        exact ⟨_, rfl⟩
  | cons id ids =>
      rw [hl] at written
      have hrules : rulesIn e.document = .error (.structural (.tooDeep id)) := written
      intro format
      cases format <;> rw [Editor.write, Transfer.write, hrules] <;> rfl

/-- **What a validation without errors finds is what is written**, after any run of commands, as
long as no tree has more levels than may be built.  Otherwise the document is not written, on
account of the first vertex on the level that is one too many. -/
theorem write_of_no_errors (settings : Settings) (commands : List Command) :
    let e := (new settings).run commands
    (∀ d ∈ e.validate.diagnostics, d.isError = false) →
      match e.grove.flatMap (Branch.onLevel nestingLimit) with
      | [] => e.write .dsl = .ok e.validate.text ∧ ∃ text, e.write .json = .ok text
      | id :: _ => ∀ format, e.write format = .error (.structural (.tooDeep id)) :=
  (sound_run (sound_new settings) commands).write_of_clean

/-- The id on a level of a chain. -/
def chainId (level : Nat) : String := String.ofList [Char.ofNat ('A'.toNat + level)]

/-- Commands that add a chain of negations, each below the one before, and a comparison last. -/
def chain (levels : Nat) : List Command :=
  (List.range levels).map fun i =>
    .add (some (chainId i))
      ⟨none, none, if i + 1 = levels then
          .fieldCondition (some "age") (some .lessThan) (some (.int 18))
        else .group .not⟩
      (if i = 0 then none else some (chainId (i - 1)))

/-- Nothing is validated unless it is asked for. -/
def quiet : Settings := ⟨false, false, 1, .standard⟩

/-- A chain of two levels is written as it was found. -/
theorem write_of_no_errors_short :
    ((new quiet).run (chain 2)).write .dsl = .ok ((new quiet).run (chain 2)).validate.text :=
  (write_of_no_errors quiet (chain 2) (by decide +kernel)).1

/-- A chain with one level too many has no findings at all, and is not written. -/
theorem write_of_no_errors_chain :
    ((new quiet).run (chain 33)).validate.diagnostics = [] ∧
      ∀ format, (((new quiet).run (chain 33)).write format).isOk = false := by
  refine ⟨by decide +kernel, fun format => ?_⟩
  cases format <;> decide +kernel

end Editor

end Rulebook
