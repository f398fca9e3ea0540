/-!
# How often a pipeline runs
-/

namespace EtlFlow.Workflow

/-- How often a pipeline runs. -/
inductive Frequency where
  | oneTime
  | hourly
  | daily
  | weekly
  deriving DecidableEq, Repr

namespace Frequency

/-- The word for a frequency. -/
def text : Frequency → String
  | .oneTime => "one-time"
  | .hourly => "hourly"
  | .daily => "daily"
  | .weekly => "weekly"

/-- The frequency that a word names. -/
def ofText? (s : String) : Option Frequency :=
  [oneTime, hourly, daily, weekly].find? (·.text == s)

/-- The time from one start to the next. -/
def period : Frequency → String
  | .oneTime => "15 minutes"
  | .hourly => "1 hour"
  | .daily => "1 day"
  | .weekly => "1 week"

/-- How many starts there are, where that is bounded. -/
def occurrences? : Frequency → Option Nat
  | .oneTime => some 1
  | _ => none

@[simp]
theorem ofText?_text (f : Frequency) : ofText? f.text = some f := by
  cases f <;> decide

end Frequency

end EtlFlow.Workflow
