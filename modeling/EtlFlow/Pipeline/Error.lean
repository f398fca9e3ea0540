import EtlFlow.Dependency.Dag
import EtlFlow.Step.Error
import EtlFlow.Workflow.Graph
/-!
# Why a pipeline cannot be compiled
-/

namespace EtlFlow.Pipeline

/-- What is wrong with the definition of a pipeline. -/
inductive InputError where
  | noName
  | noSteps (pipeline : String)
  | loadTime (text : String)
  | timeDelta (text : String)
  | timeDeltaRange (text : String)
  | startRange (delta : String)
  | repeatedStep (id : String)
  | twoInputs (step : String)
  /-- A hook refuses the pipeline. -/
  | refused (reason : String)
  deriving DecidableEq, Repr

/-- The wording of what is wrong with the definition of a pipeline. -/
def InputError.message : InputError → String
  | noName => "pipeline 'name' is empty"
  | noSteps p => "pipeline '" ++ p ++ "' has no steps"
  | loadTime t => "load_time '" ++ t ++ "' is not HH:MM"
  | timeDelta t => "time_delta '" ++ t ++ "' is not of the form Nd, Nh or Nm"
  | timeDeltaRange t => "time_delta '" ++ t ++ "' is out of range"
  | startRange t => "time_delta '" ++ t ++ "' moves the start out of range"
  | repeatedStep id => "duplicate step id '" ++ id ++ "'"
  | twoInputs id => "step '" ++ id ++ "' sets both input_node and input_path"
  | refused reason => reason

/-- What a pipeline names that is not there. -/
inductive ReferenceError where
  | node (id name : String)
  | step (id name : String)
  /-- A hook misses something. -/
  | missed (reason : String)
  deriving DecidableEq, Repr

/-- The wording of what is not there. -/
def ReferenceError.message : ReferenceError → String
  | node id name =>
    "step '" ++ id ++ "' reads input_node '" ++ name ++ "' which no earlier step produced"
  | step id name =>
    "step '" ++ id ++ "' depends on '" ++ name ++ "' which is not an earlier step"
  | missed reason => reason

/-- Why a pipeline cannot be compiled. -/
inductive Error where
  | input (cause : InputError)
  | reference (cause : ReferenceError)
  | notYaml (cause : Yaml.SyntaxError)
  | decode (cause : Yaml.DecodeError)
  | io (path : String) (cause : Files.IoError)
  | settings (cause : Settings.Error)
  | step (cause : Step.Error)
  | workflow (cause : Workflow.Error)
  | order (cause : Dependency.Error)
  deriving DecidableEq, Repr

/-- The wording of an error. -/
def Error.message : Error → String
  | input e => "invalid pipeline definition: " ++ e.message
  | reference e => "unresolved reference: " ++ e.message
  | notYaml e => "YAML error: " ++ e.message
  | decode e => "YAML error: " ++ e.message
  | io path e => "I/O error: " ++ path ++ ": " ++ e.message
  | settings e => "config error: " ++ e.message
  | step e => e.message
  | workflow e => "workflow object error: " ++ e.message
  | order e => "activity graph error: " ++ e.message

end EtlFlow.Pipeline
