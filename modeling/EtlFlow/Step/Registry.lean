import EtlFlow.Settings.Basic
import EtlFlow.Step.Error
import EtlFlow.Step.Kind
/-!
# Step types

The words that a pipeline may use for its steps: the kinds of steps, and words for a kind with preset
arguments.
-/

namespace EtlFlow.Step

open Yaml (Value)

/-- What a step type stands for. -/
structure StepType where
  kind : Kind
  defaults : Value.Entries := []
  deriving Repr

/-- The step types by name. -/
structure Registry where
  entries : List (String × StepType)
  deriving Repr

namespace Registry

/-- The step types that there always are. -/
def builtin : Registry := ⟨Sorted.ofEntries (Kind.all.map fun k => (k.text, ⟨k, []⟩))⟩

/-- The names of the step types. -/
def names (r : Registry) : List String := r.entries.map (·.1)

/-- The registry with a custom type of step. -/
def register (r : Registry) (c : Settings.CustomStep) : Except Error Registry :=
  if c.stepType ∈ r.names then refuse (.clashingType c.stepType)
  else
    match Kind.ofText? c.base with
    | some kind => .ok ⟨Sorted.put c.stepType ⟨kind, c.defaults⟩ r.entries⟩
    | none => refuse (.unknownBase c.stepType c.base)

/-- The registry with the custom types of the settings. -/
def ofSettings (s : Settings) : Except Error Registry := s.customSteps.foldlM register builtin

/-- What a name stands for. -/
def resolve (r : Registry) (stepType : String) : Except Error StepType :=
  demand (.unregistered stepType r.names) (r.entries.lookup stepType)

end Registry

end EtlFlow.Step
