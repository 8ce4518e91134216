import Rulebook.RoundTrip.Validate
import Rulebook.Text.Escaped

/-!
# Rulebook — RoundTrip — Suite

Named round trips with what is expected of them.
-/

namespace Rulebook.RoundTrip

/-- What is expected of a round trip. -/
structure Expectation where
  shouldSucceed : Bool
  /-- Each has to occur in the message of some error. -/
  errorsContain : List String
  /-- Each has to occur in the message of some warning. -/
  warningsContain : List String
  deriving DecidableEq, Repr

namespace Expectation

/-- Success, and nothing else. -/
def standard : Expectation := ⟨true, [], []⟩

end Expectation

/-- A named round trip; without an expectation it has to succeed. -/
structure Case where
  name : String
  node : Node
  expected : Option Expectation

/-- How a case went: the unmet expectations, in words, and the report. -/
structure CaseOutcome where
  name : String
  failures : List String
  report : Report

namespace CaseOutcome

/-- Whether every expectation was met. -/
def passed (o : CaseOutcome) : Bool := o.failures.isEmpty

end CaseOutcome

/-- Whether a text occurs in another. -/
def occursIn (needle : List Char) : List Char → Bool
  | [] => needle.isEmpty
  | c :: cs => needle.isPrefixOf (c :: cs) || occursIn needle cs

/-- Whether a text occurs in the message of a diagnostic. -/
def mentioned (needle : String) (ds : List Diagnostic) : Bool :=
  ds.any fun d => occursIn needle.toList d.message.toList

/-- The unmet expectations, in words. -/
def unmet (e : Expectation) (r : Report) : List String :=
  (if r.success = e.shouldSucceed then []
  else if e.shouldSucceed then ["expected the round trip to succeed"]
  else ["expected the round trip to fail"]) ++
  ((e.errorsContain.filter fun n => !mentioned n r.errors).map fun n =>
    "no error containing " ++ Text.shown n) ++
  ((e.warningsContain.filter fun n => !mentioned n r.warnings).map fun n =>
    "no warning containing " ++ Text.shown n)

/-- Runs a case. -/
def runCase (s : Settings) (c : Case) : CaseOutcome :=
  let report := validate s c.node
  ⟨c.name, unmet (c.expected.getD .standard) report, report⟩

/-- The outcomes of all cases, in order. -/
def runSuite (s : Settings) (cases : List Case) : List CaseOutcome := cases.map (runCase s)

/-- The number of cases that passed. -/
def passedCount (outcomes : List CaseOutcome) : Nat :=
  (outcomes.filter CaseOutcome.passed).length

/-- The number of cases that failed. -/
def failedCount (outcomes : List CaseOutcome) : Nat :=
  outcomes.length - passedCount outcomes

/-- The counts in words. -/
def headline (outcomes : List CaseOutcome) : String :=
  s!"{passedCount outcomes} passed, {failedCount outcomes} failed of {outcomes.length}"

/-- A line for every case that failed. -/
def failureLines (outcomes : List CaseOutcome) : List String :=
  (outcomes.filter fun o => !o.passed).map fun o =>
    "  " ++ o.name ++ ": " ++ String.intercalate "; " o.failures

end Rulebook.RoundTrip
