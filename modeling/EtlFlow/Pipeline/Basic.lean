import EtlFlow.Dependency.Dag
import EtlFlow.Step.Context
import EtlFlow.Step.Kind
import EtlFlow.Workflow.Graph
/-!
# Pipelines

A compiled pipeline: the objects for the orchestrator, the files that are staged for them, and what each step
came to.  Each compilation works in directories of its own, named by its version.
-/

namespace EtlFlow

open Workflow (ObjectId)

/-! ### Directories -/

namespace Pipeline

open Storage (Location)

/-- The directories of a pipeline in the object store. -/
structure Paths where
  source : Location
  data : Location
  logs : Location
  checkLogs : Location
  deriving DecidableEq, Repr

namespace Paths

/-- The directory that tells the runs of a pipeline apart; the orchestrator fills in the time. -/
def runDirectory : String := "#\x7bformat(@scheduledStartTime,'YYYY-MM-dd_HHmmss')\x7d"

/-- The directories of a version of a pipeline. -/
def ofPipeline (etl : Settings.Etl) (pipeline version : String) (frequency : Workflow.Frequency) :
    Except Settings.Error Paths := do
  let base := Location.directory (← etl.bucket) etl.basePath
  let part (name : String) : Location :=
    ((base.joinDirectory name).joinDirectory pipeline).joinDirectory version
  return {
    source := part "src"
    data := if frequency = .oneTime then part "data" else (part "data").joinDirectory runDirectory
    logs := part "logs"
    checkLogs := (base.joinDirectory etl.checkLogPath).joinDirectory pipeline }

/-- The directories of a step. -/
def forStep (p : Paths) (id : String) : Step.Paths :=
  ⟨p.source.joinDirectory id, p.data.joinDirectory id, p.logs.joinDirectory id⟩

/-- The place of the document that the orchestrator takes. -/
def definition (p : Paths) : Location := p.source.joinFile "pipeline_definition.json"

end Paths

end Pipeline

/-! ### Steps -/

/-- What a step is there for. -/
inductive Pipeline.Role where
  /-- It prepares a machine. -/
  | bootstrap
  | step
  | teardown
  deriving DecidableEq, Repr

/-- What a step came to. -/
structure Pipeline.CompiledStep where
  id : String
  kind : Step.Kind
  role : Pipeline.Role
  activities : List ObjectId
  /-- The steps that it waits for, because it says so or because it reads what they make. -/
  dependsOn : List String
  input : Step.Nodes
  output : Step.Nodes
  deriving DecidableEq, Repr

/-! ### Pipelines -/

/-- A compiled pipeline. -/
structure Pipeline where
  name : String
  version : String
  frequency : Workflow.Frequency
  description : Option String
  tags : List (String × String)
  paths : Pipeline.Paths
  graph : Workflow.Graph
  steps : List Pipeline.CompiledStep
  artifacts : List Step.Artifact

namespace Pipeline

/-- The first step of an id. -/
def step? (p : Pipeline) (id : String) : Option CompiledStep := p.steps.find? (·.id == id)

/-- The document that the orchestrator takes. -/
def document (p : Pipeline) : String := p.graph.document

/-- The order of the activities. -/
def dag (p : Pipeline) : Except Dependency.Error Dependency.Dag :=
  Dependency.Dag.ofActivities p.graph.activities

end Pipeline

end EtlFlow
