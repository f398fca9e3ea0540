import EtlFlow.Pipeline.Start
import EtlFlow.Step.Descriptor
import EtlFlow.Settings.Basic
import EtlFlow.Yaml.Written
/-!
# Definitions of pipelines

A definition is a YAML document: a name, how often the pipeline runs, its steps, and what it wants to have
otherwise than the settings say.
-/

namespace EtlFlow.Pipeline

open Yaml (Value Node)
open Workflow (Frequency)

/-- A pipeline as it is defined. -/
structure Definition where
  name : String
  frequency : Frequency
  steps : List Step.Descriptor
  description : Option String := none
  loadTime : Option LoadTime := none
  /-- The shift of the first start. -/
  delta : Option String := none
  topic : Option String := none
  maxRetries : Option Nat := none
  /-- What is laid over the machine of the settings. -/
  ec2 : Option Value := none
  /-- What is laid over the cluster of the settings. -/
  emr : Option Value := none
  workerGroup : Option String := none
  /-- Replaces the steps of the settings that prepare the machines. -/
  bootstrap : Option Settings.Bootstrap := none
  teardown : Option Step.Descriptor := none
  /-- The directory that file names start from. -/
  baseDirectory : String := ""
  deriving Repr

/-! ### Fields -/

/-- How a load time is written: as minutes, or as a text. -/
def LoadTime.read : Node.Read LoadTime :=
  Node.decoded (Yaml.Decode.either "LoadTime" (fun v => .minutes <$> Yaml.Decode.natural 32 v)
    (fun v => .clock <$> Yaml.Decode.string v))

/-- The words for the frequencies. -/
def frequencyWords : List (String × Frequency) :=
  [Frequency.oneTime, .hourly, .daily, .weekly].map fun f => (f.text, f)

/-- How steps that prepare the machines are written. -/
def readBootstrap : Node.Read Settings.Bootstrap := fun n => do
  let fs ← n.fields ["ec2", "emr"]
  return {
    ec2 := ← Node.withDefault fs "ec2" (Node.list Node.value) []
    emr := ← Node.withDefault fs "emr" (Node.list Node.value) [] }

namespace Definition

/-- The names of the fields. -/
def fieldNames : List String := [
  "name", "frequency", "steps", "description", "load_time", "time_delta", "topic_arn",
  "max_retries", "ec2_resource_config", "emr_cluster_config", "worker_group", "bootstrap",
  "teardown"]

/-- A definition without its steps, and the values that describe its steps and its teardown. -/
def read (baseDirectory : String) :
    Node.Read (Definition × List Value × Option Value) := fun n => do
  let fs ← n.fields fieldNames
  let optional {α : Type} (name : String) (read : Node.Read α) := Node.optional fs name read
  let definition : Definition := {
    name := ← Node.required fs "name" Node.text
    frequency := ← Node.required fs "frequency" (Node.word frequencyWords)
    steps := []
    description := ← optional "description" Node.text
    loadTime := ← optional "load_time" LoadTime.read
    delta := ← optional "time_delta" Node.text
    topic := ← optional "topic_arn" Node.text
    maxRetries := ← optional "max_retries" (Node.decoded (Yaml.Decode.natural 32))
    ec2 := ← optional "ec2_resource_config" Node.value
    emr := ← optional "emr_cluster_config" Node.value
    workerGroup := ← optional "worker_group" Node.text
    bootstrap := ← optional "bootstrap" readBootstrap
    baseDirectory }
  return (definition, ← Node.withDefault fs "steps" (Node.list Node.value) [],
    ← optional "teardown" Node.value)

/-! ### Documents -/

/-- The step that a value describes; an error names the step by its position. -/
def readStep (v : Value) (position : Nat) : Except Step.Error Step.Descriptor :=
  (Step.Descriptor.ofValue v).mapError (.inStep ("#" ++ toString position))

/-- The definition that a text holds, with file names that start from `baseDirectory`. -/
def parse (text baseDirectory : String) : Except Error Definition := do
  let node := ((← (Node.parse? text).mapError .notYaml).getD .empty)
  let (definition, steps, teardown) ← (read baseDirectory node).mapError fun
    | .notYaml e => Error.notYaml e
    | .decode e => .decode e
  if Text.trimmed definition.name = "" then throw (.input .noName)
  if steps.isEmpty then throw (.input (.noSteps definition.name))
  let steps ← (steps.zipIdx.mapM fun (v, i) => readStep v i).mapError .step
  let teardown ← (teardown.mapM Step.Descriptor.ofValue).mapError .step
  return { definition with steps, teardown }

/-- The definition that a file holds, with file names that start from its directory. -/
def ofFile (files : Files.Tree) (path : String) : Except Error Definition := do
  parse (← (files.readText path).mapError (.io path)) (Files.Path.parent path)

end Definition

end EtlFlow.Pipeline
