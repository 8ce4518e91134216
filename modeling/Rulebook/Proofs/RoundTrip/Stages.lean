import Mathlib.Logic.ExistsUnique
import Rulebook.RoundTrip.Validate

/-!
# Rulebook — Proofs — RoundTrip — Stages

The stages of a round trip run one behind the other, and the first that fails is the last that runs.
The report is written as they go: before a stage it is `Report.Reached`, with all before the stage
passed and all from it on pending, and a stage either halts it there or takes it one further.

* `Report.Reached.fail`, `Report.Reached.next`: one stage.
* `runStages_cases`: the run.
* `validate_gated`: the report of a round trip is in one of two shapes.
-/

namespace Rulebook.RoundTrip

theorem Stage.index_inj {j k : Stage} : j.index = k.index ↔ j = k := by
  cases j <;> cases k <;> decide

namespace Report

/-- Whether the report holds what a stage produces. -/
def holds (r : Report) : Stage → Bool
  | .nodesToRule => r.rule.isSome
  | .ruleToText => r.text.isSome
  | .textToRule => r.reparsed.isSome
  | .ruleToNodes => r.rebuilt.isSome

/-- Every stage passed and produced something, and there are no errors. -/
structure Passed (r : Report) : Prop where
  stages : ∀ k, r.stages k = .passed ∧ r.holds k = true
  errors : r.errors = []

/-- A stage failed, and stopped the round trip of a node tree.  The one error is that of the stage,
about the top of the tree, and has a place if a text was not read. -/
structure Halted (r : Report) (n : Node) (k : Stage) : Prop where
  before : ∀ j : Stage, j.index < k.index → r.stages j = .passed ∧ r.holds j = true
  failed : ∃ e : StageError, r.stages k = .failed e.message ∧
    r.errors = [⟨k.name ++ " failed: " ++ e.message, .error, k.code, some n.id, e.location⟩] ∧
    (e.location.isSome = true ↔ k = .textToRule)
  empty : r.holds k = false
  behind : ∀ j : Stage, k.index < j.index → r.stages j = .skipped ∧ r.holds j = false
  warnings : r.warnings = []

/-- The stages below an index have passed, and those from it on are still to run. -/
structure Reached (r : Report) (i : Nat) : Prop where
  before : ∀ j : Stage, j.index < i → r.stages j = .passed ∧ r.holds j = true
  ahead : ∀ j : Stage, i ≤ j.index → r.stages j = .pending ∧ r.holds j = false
  errors : r.errors = []
  warnings : r.warnings = []

variable {r r' : Report} {n : Node} {j k : Stage}

theorem all_passed_iff :
    (Stage.all.all fun k => r.stages k = .passed) = true ↔ ∀ k, r.stages k = .passed := by
  rw [List.all_eq_true]
  exact ⟨fun h k => by simpa using h k (by cases k <;> decide), fun h k _ => by simp [h k]⟩

namespace Halted

theorem not_passed (h : r.Halted n k) : r.stages k ≠ .passed := by
  obtain ⟨e, failed, -⟩ := h.failed
  rw [failed]
  exact fun h => nomatch h

theorem success_eq_false (h : r.Halted n k) : r.success = false := by
  refine Bool.eq_false_iff.mpr fun success => h.not_passed ?_
  exact all_passed_iff.mp (Bool.and_eq_true_iff.mp success).2 k

/-- Only one stage fails. -/
theorem unique (h : r.Halted n k) (h' : r.Halted n j) : j = k := by
  rcases Nat.lt_trichotomy j.index k.index with lt | eq | gt
  · exact absurd (h.before j lt).1 h'.not_passed
  · exact Stage.index_inj.mp eq
  · exact absurd (h'.before k gt).1 h.not_passed

end Halted

/-! ### One stage -/

theorem reached_blank : blank.Reached Stage.nodesToRule.index where
  before _ hj := absurd hj (Nat.not_lt_zero _)
  ahead j _ := by cases j <;> exact ⟨rfl, rfl⟩
  errors := rfl
  warnings := rfl

@[simp] theorem holds_fail {node : String} {e : StageError} (j : Stage) :
    (r.fail k node e).holds j = r.holds j := by
  cases j <;> rfl

namespace Reached

/-- A stage that fails halts the round trip. -/
theorem fail (h : r.Reached k.index) {e : StageError}
    (place : e.location.isSome = true ↔ k = .textToRule) : (r.fail k n.id e).Halted n k where
  before j hj := by
    have ne : j ≠ k := fun eq => Nat.lt_irrefl _ (eq ▸ hj)
    rw [holds_fail]
    simpa [Report.fail, Nat.not_lt_of_gt hj, ne] using h.before j hj
  failed := by
    refine ⟨e, ?_, ?_, place⟩
    · simp [Report.fail]
    · rw [Report.fail, h.errors, List.nil_append]
  empty := by
    rw [holds_fail]
    exact (h.ahead k (Nat.le_refl _)).2
  behind j hj := by
    rw [holds_fail]
    exact ⟨by simp [Report.fail, hj], (h.ahead j (Nat.le_of_lt hj)).2⟩
  warnings := h.warnings

/-- A stage that passes, and whose product is kept, takes the round trip to the one behind it. -/
theorem next (h : r.Reached k.index) (stages : r'.stages = (r.pass k).stages)
    (holds : ∀ i, r'.holds i = (decide (i = k) || r.holds i)) (errors : r'.errors = r.errors)
    (warnings : r'.warnings = r.warnings) (following : j.index = k.index + 1) :
    r'.Reached j.index where
  before i hi := by
    rw [stages, holds]
    rcases Nat.lt_succ_iff_lt_or_eq.mp (following ▸ hi) with lt | eq
    · obtain ⟨passed, held⟩ := h.before i lt
      simp [pass, passed, held]
    · obtain rfl := Stage.index_inj.mp eq
      simp [pass]
  ahead i hi := by
    rw [following] at hi
    have ne : i ≠ k := fun eq => Nat.lt_irrefl _ (eq ▸ hi)
    rw [stages, holds]
    simpa [pass, ne] using h.ahead i (Nat.le_of_succ_le hi)
  errors := errors.trans h.errors
  warnings := warnings.trans h.warnings

end Reached

/-- A stage that succeeds passes, and the pipeline goes on with its value. -/
@[simp] theorem through_mapError_ok {ε α : Type} (node : String) (g : ε → StageError) (a : α)
    (f : α → Report → Report) :
    r.through k node (Except.mapError g (.ok a)) f = f a (r.pass k) := rfl

end Report

/-! ### The run -/

variable {s : Settings} {n : Node}

/-- The report when every stage passed, before the comparison. -/
theorem runStages_of_ok {rule q : Rule} {text : String} {m : Node} (hr : n.toRule = .ok rule)
    (ht : Dsl.print rule s.layout = .ok text) (hq : readRule text = .ok q)
    (hm : q.toNode = .ok m) : runStages s n =
      { stages := Report.allPassed
        rule := some rule
        text := some text
        reparsed := some q
        rebuilt := some m
        errors := []
        warnings := [] } := by
  have all : (fun k : Stage => if k = .ruleToNodes then StageResult.passed
      else if k = .textToRule then .passed else if k = .ruleToText then .passed
      else if k = .nodesToRule then .passed else .pending) = Report.allPassed := by
    funext k
    cases k <;> rfl
  simp [runStages, hr, ht, hq, hm, Report.pass, Report.blank, all]

/-- **A run of the stages.**  Each conversion succeeds, or the run halts at the first that does
not. -/
theorem runStages_cases (s : Settings) (n : Node) :
    (∃ rule text q m, n.toRule = .ok rule ∧ Dsl.print rule s.layout = .ok text ∧
      readRule text = .ok q ∧ q.toNode = .ok m) ∨
    ∃ k, (runStages s n).Halted n k := by
  -- one conversion after the other: it halts the run, or the report has reached the next stage
  have first := Report.reached_blank
  cases hr : n.toRule with
  | error e =>
      refine .inr ⟨.nodesToRule, ?_⟩
      rw [runStages, hr]
      exact first.fail (by simp [placeless])
  | ok rule =>
  have second : Report.Reached { Report.blank.pass .nodesToRule with rule := some rule }
      Stage.ruleToText.index :=
    first.next rfl (fun i => by cases i <;> rfl) rfl rfl rfl
  cases ht : Dsl.print rule s.layout with
  | error e =>
      refine .inr ⟨.ruleToText, ?_⟩
      simp only [runStages, hr, ht, Report.through_mapError_ok]
      exact second.fail (by simp [placeless])
  | ok text =>
  have third : Report.Reached { Report.pass _ .ruleToText with text := some text }
      Stage.textToRule.index :=
    second.next rfl (fun i => by cases i <;> rfl) rfl rfl rfl
  cases hq : readRule text with
  | error e =>
      refine .inr ⟨.textToRule, ?_⟩
      simp only [runStages, hr, ht, hq, Report.through_mapError_ok]
      exact third.fail (by simp [placed])
  | ok q =>
  have last : Report.Reached { Report.pass _ .textToRule with reparsed := some q }
      Stage.ruleToNodes.index :=
    third.next rfl (fun i => by cases i <;> rfl) rfl rfl rfl
  cases hm : q.toNode with
  | error e =>
      refine .inr ⟨.ruleToNodes, ?_⟩
      simp only [runStages, hr, ht, hq, hm, Report.through_mapError_ok]
      exact last.fail (by simp [placeless])
  | ok m => exact .inl ⟨rule, text, q, m, rfl, ht, hq, hm⟩

/-! ### The report -/

/-- The report when every stage passed. -/
theorem validate_of_ok {rule q : Rule} {text : String} {m : Node} (hr : n.toRule = .ok rule)
    (ht : Dsl.print rule s.layout = .ok text) (hq : readRule text = .ok q)
    (hm : q.toNode = .ok m) : validate s n =
      { stages := Report.allPassed
        rule := some rule
        text := some text
        reparsed := some q
        rebuilt := some m
        errors := []
        warnings := countWarnings n m ++ differences s n m } := by
  rw [validate, runStages_of_ok hr ht hq hm]
  rfl

/-- Nothing is compared when a stage failed. -/
theorem validate_of_halted {k : Stage} (h : (runStages s n).Halted n k) :
    validate s n = runStages s n := by
  have failed : ¬ (Stage.all.all fun j => (runStages s n).stages j = .passed) = true := by
    rw [Report.all_passed_iff]
    exact fun passed => h.not_passed (passed k)
  rw [validate]
  exact if_neg failed

/-- **The report of a round trip is in one of two shapes.**  It is a success if every stage passed
and produced something, without an error; otherwise just one stage failed, all before it passed and
produced something, all behind it were skipped, and its error is all that is reported.  It is a
success exactly if each of the conversions is one, the one behind the other. -/
theorem validate_gated (s : Settings) (n : Node) :
    ((validate s n).success = true ↔ (validate s n).Passed) ∧
      ((validate s n).success = false ↔ ∃! k, (validate s n).Halted n k) ∧
      ((validate s n).success = true ↔ ∃ rule text q m, n.toRule = .ok rule ∧
        Dsl.print rule s.layout = .ok text ∧ readRule text = .ok q ∧ q.toNode = .ok m) := by
  have success_of_ok {rule q : Rule} {text : String} {m : Node} (hr : n.toRule = .ok rule)
      (ht : Dsl.print rule s.layout = .ok text) (hq : readRule text = .ok q)
      (hm : q.toNode = .ok m) : (validate s n).success = true ∧ (validate s n).Passed := by
    rw [validate_of_ok hr ht hq hm]
    exact ⟨rfl, fun k => by cases k <;> exact ⟨rfl, rfl⟩, rfl⟩
  rcases runStages_cases s n with ⟨rule, text, q, m, hr, ht, hq, hm⟩ | ⟨k, halted⟩
  · obtain ⟨success, passed⟩ := success_of_ok hr ht hq hm
    refine ⟨iff_of_true success passed, iff_of_false (by simp [success]) ?_,
      iff_of_true success ⟨rule, text, q, m, hr, ht, hq, hm⟩⟩
    rintro ⟨k, halted, -⟩
    exact halted.not_passed (passed.stages k).1
  · rw [← validate_of_halted halted] at halted
    have failure := halted.success_eq_false
    refine ⟨iff_of_false (by simp [failure]) fun passed => halted.not_passed (passed.stages k).1,
      iff_of_true failure ⟨k, halted, fun j => halted.unique⟩, iff_of_false (by simp [failure]) ?_⟩
    rintro ⟨rule, text, q, m, hr, ht, hq, hm⟩
    exact absurd (success_of_ok hr ht hq hm).1 (by simp [failure])

/-- A function named like the word for a negation is written, and not read again. -/
example :
    let r := validate .standard (.bare "top" (.call (some "NOT") [⟨.string "a", .fieldReference⟩]))
    r.success = false ∧
      Stage.all.map (fun k => (r.stages k).word) = ["ok", "ok", "failed", "skipped"] ∧
      r.text = some "NOT(a)" ∧ r.reparsed.isNone ∧
      r.errors.map Diagnostic.location = [some ⟨1, 6⟩] := by
  decide +kernel

end Rulebook.RoundTrip
