import ApiContract.Run.Failure

namespace ApiContract

inductive CaseOutcome
  | passed
  | skipped
  /-- not tried, since the setup failed -/
  | blocked
  | failed (failure : Failure)

structure CaseReport where
  name : String
  outcome : CaseOutcome

structure Report where
  name : String
  skipped : Bool
  setup : Option Failure
  cases : List CaseReport

namespace CaseOutcome

def isPassed : CaseOutcome → Bool
  | passed => true
  | _ => false

/-- Whether nothing is wrong: a skipped case is as good as a passed one. -/
def isFine : CaseOutcome → Bool
  | passed | skipped => true
  | _ => false

def failure? : CaseOutcome → Option Failure
  | failed failure => some failure
  | _ => none

end CaseOutcome

namespace Report

def passed (report : Report) : Bool :=
  report.setup.isNone && report.cases.all (·.outcome.isFine)

def count (report : Report) (p : CaseOutcome → Bool) : Nat := report.cases.countP (p ·.outcome)

def failures (report : Report) : List (String × Failure) :=
  report.cases.filterMap fun c => c.outcome.failure?.map (c.name, ·)

end Report

end ApiContract
