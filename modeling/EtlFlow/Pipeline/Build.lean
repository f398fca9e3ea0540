import EtlFlow.Pipeline.Basic
import EtlFlow.Pipeline.Definition
import EtlFlow.Step.Expand
import EtlFlow.Step.Registry
/-!
# Building a pipeline

The steps of a definition are expanded one by one.  A machine is added when the first step needs it, and the
steps that prepare it are expanded right then, before that step.
-/

namespace EtlFlow.Pipeline

open Storage (Location)
open Workflow (ObjectId Object Runner)
open Step (NodeRef Nodes Machine Descriptor)
open Yaml (Value)

/-! ### What is given -/

/-- What stays the same while the steps of a pipeline are expanded. -/
structure Plan where
  settings : Settings
  registry : Step.Registry
  files : Files.Tree
  definition : Definition
  /-- The name of the pipeline. -/
  name : String
  paths : Paths
  /-- Where the alarm of the pipeline goes to, if it has one. -/
  topic : Option String

namespace Plan

/-- The group of machines that stands in for a machine of the pipeline's own. -/
def workerGroup (p : Plan) : Option String :=
  p.definition.workerGroup <|> p.settings.etl.workerGroup

/-- What a step type stands for. -/
def resolve (p : Plan) (d : Descriptor) : Except Error Step.StepType :=
  (p.registry.resolve d.stepType).mapError .step

/-- The id of a step: its name, or the kind and the position of the step. -/
def stepId (p : Plan) (start : String) (d : Descriptor) (position : Nat) : Except Error String :=
  match d.name with
  | some name => .ok name
  | none => do
    return start ++ (← p.resolve d).kind.idStart ++ toString position

/-- The values that describe the steps that prepare a machine.  Those of the definition replace those of
the settings. -/
def bootstrap (p : Plan) : Machine → List Value
  | .ec2 => (p.definition.bootstrap.getD p.settings.bootstrap).ec2
  | .emr => (p.definition.bootstrap.getD p.settings.bootstrap).emr
  | .none => []

/-- The description of the step that runs behind all others. -/
def teardown? (p : Plan) : Except Error (Option Descriptor) :=
  match p.definition.teardown with
  | some d => .ok (some d)
  | none => (p.settings.teardown.mapM Descriptor.ofValue).mapError .step

/-- What the machines of the pipeline have in common. -/
def machineRoles (p : Plan) : Except Settings.Error Workflow.MachineRoles := do
  let role ← p.settings.etl.pipelineRole
  return ⟨Workflow.Schedule.id, p.paths.logs, role, ← p.settings.etl.machineRole⟩

/-- The machine of the pipeline. -/
def ec2 (p : Plan) : Except Settings.Error Workflow.Ec2Resource := do
  let machine ← (p.definition.ec2.map p.settings.ec2.overlaid).getD (.ok p.settings.ec2)
  return ⟨← p.machineRoles, machine⟩

/-- The cluster of the pipeline. -/
def emr (p : Plan) : Except Settings.Error Workflow.EmrCluster := do
  let cluster ← (p.definition.emr.map p.settings.emr.overlaid).getD (.ok p.settings.emr)
  return ⟨← p.machineRoles, cluster⟩

end Plan

/-- A step that is to be expanded. -/
structure PlannedStep where
  descriptor : Descriptor
  id : String
  role : Role
  /-- Steps that it waits for in any case. -/
  after : List String := []

/-! ### What is built -/

/-- What the steps so far came to. -/
structure Build where
  graph : Workflow.Graph := {}
  /-- What runs the commands, from when the first step needs it. -/
  ec2 : Option Runner := none
  /-- The series of the image of the cluster, from when the first step needs it. -/
  emr : Option Nat := none
  /-- The warehouse, from when the first step needs it. -/
  warehouse : Option ObjectId := none
  /-- The nodes that steps can read, by name; of several with one name the first counts. -/
  nodes : List (String × NodeRef) := []
  /-- The step that made a node; of several for one node the first counts. -/
  producers : List (ObjectId × String) := []
  steps : List CompiledStep := []
  /-- The activities that prepare the machine. -/
  ec2Bootstrap : List ObjectId := []
  /-- The activities that prepare the cluster. -/
  emrBootstrap : List ObjectId := []
  artifacts : List Step.Artifact := []
  /-- What the last step of the definition makes. -/
  lastOutput : Nodes := .none

namespace Build

/-- The step of an id; of several the last. -/
def step? (b : Build) (id : String) : Option CompiledStep := b.steps.reverse.find? (·.id == id)

/-- The activities of the step of an id. -/
def activitiesOf (b : Build) (id : String) : List ObjectId := ((b.step? id).map (·.activities)).getD []

/-- What runs the steps that need a machine. -/
def runner? (b : Build) : Machine → Option Runner
  | .ec2 => b.ec2
  | .emr => b.emr.map fun _ => .resource Workflow.EmrCluster.id
  | .none => none

/-- The machine is there. -/
def isReady (b : Build) : Machine → Bool
  | .ec2 => b.ec2.isSome
  | .emr => b.emr.isSome
  | .none => true

/-- The activities that prepare a machine. -/
def preparation (b : Build) : Machine → List ObjectId
  | .ec2 => b.ec2Bootstrap
  | .emr => b.emrBootstrap
  | .none => []

/-- The build with further activities that prepare a machine. -/
def addPreparation (b : Build) (ids : List ObjectId) : Machine → Build
  | .ec2 => { b with ec2Bootstrap := b.ec2Bootstrap ++ ids }
  | .emr => { b with emrBootstrap := b.emrBootstrap ++ ids }
  | .none => b

/-- The build with a further object. -/
def addObject (b : Build) (o : Object) : Except Error Build := do
  return { b with graph := ← (b.graph.add o).mapError .workflow }

/-! ### Machines and the warehouse -/

/-- The build with a machine that was not there. -/
def addMachine (p : Plan) (b : Build) : Machine → Except Error Build
  | .ec2 =>
    match p.workerGroup with
    | some group => .ok { b with ec2 := some (.workerGroup group) }
    | none => do
      let b ← b.addObject (.ec2 (← p.ec2.mapError .settings))
      return { b with ec2 := some (.resource Workflow.Ec2Resource.id) }
  | .emr => do
    let cluster ← p.emr.mapError .settings
    let b ← b.addObject (.emr cluster)
    return { b with emr := some cluster.cluster.imageSeries }
  | .none => .ok b

/-- The build with the warehouse. -/
def requireWarehouse (p : Plan) (b : Build) : Except Error Build :=
  if b.warehouse.isSome then .ok b
  else do
    let database ← (Workflow.RedshiftDatabase.ofSettings p.settings.redshift).mapError
      fun e => .workflow (.settings e)
    let b ← b.addObject (.redshift database)
    return { b with warehouse := some Workflow.RedshiftDatabase.id }

/-- The build with the warehouse, where steps of a kind use it. -/
def provideWarehouse (p : Plan) (b : Build) (kind : Step.Kind) : Except Error Build :=
  if kind.usesWarehouse then b.requireWarehouse p else .ok b

/-! ### What a step reads and waits for -/

/-- The node of a name that a step reads. -/
def node (b : Build) (step name : String) : Except Error NodeRef :=
  match b.nodes.lookup name with
  | some n => .ok n
  | none => .error (.reference (.node step name))

/-- The nodes that a step reads.  A step of the definition that says nothing reads what the step before it
makes, if that is a single node of the object store. -/
def resolveInput (b : Build) (s : PlannedStep) : Except Error (Nodes × Build) :=
  match s.descriptor.input, s.descriptor.inputPath with
  | some _, some _ => .error (.input (.twoInputs s.id))
  | some (.single name), none => do
    return (.single (← b.node s.id name), b)
  | some (.renamed aliases), none => do
    let named ← aliases.mapM fun (name, shown) => return (shown, ← b.node s.id name)
    return (.named (Sorted.ofEntries named), b)
  | none, some uri => do
    let path ← (Location.ofUri uri).mapError fun e => .settings (.location e)
    let n : Workflow.StoreNode := ⟨s.id ++ "InputPath", Workflow.Schedule.id, path⟩
    return (.single (.ofStore n), ← b.addObject (.store n))
  | none, none =>
    match s.role, b.lastOutput.singleStore? with
    | .step, some n => .ok (.single n, b)
    | _, _ => .ok (.none, b)

/-- The steps that a step waits for: those that it names, those that make what it reads, and those that it
waits for in any case. -/
def predecessors (b : Build) (s : PlannedStep) (input : Nodes) : Except Error (List String) :=
  let named := s.descriptor.dependsOn
  match named.find? fun id => (b.step? id).isNone with
  | some id => .error (.reference (.step s.id id))
  | none =>
    let makers := input.refs.filterMap fun n => b.producers.lookup n.id
    .ok (Sequence.addAll [] ((named ++ makers ++ s.after).filter (· ≠ s.id)))

/-- What a step is expanded in. -/
def context (p : Plan) (b : Build) (s : PlannedStep) (machine : Machine) (input : Nodes) :
    Step.Context where
  id := s.id
  settings := p.settings
  files := p.files
  baseDirectory := p.definition.baseDirectory
  pipeline := p.name
  frequency := p.definition.frequency
  schedule := Workflow.Schedule.id
  runner := b.runner? machine
  imageSeries := if machine = .emr then b.emr else none
  warehouse := b.warehouse
  input := input
  maxRetries :=
    (s.descriptor.maxRetries <|> p.definition.maxRetries).getD p.settings.etl.maxRetries
  alarm := p.topic.map fun _ => Workflow.Alarm.id
  topic := p.topic
  paths := p.paths.forStep s.id
  checkLogs := p.paths.checkLogs

/-! ### Expanding a step -/

/-- The build with the nodes that a step makes. -/
def addOutput (b : Build) (id : String) : Nodes → Build
  | .none => b
  | .single n => { b with nodes := (id, n) :: b.nodes, producers := (n.id, id) :: b.producers }
  | .named ns =>
    { b with
      nodes := ns ++ b.nodes
      producers := ns.map (fun (_, n) => (n.id, id)) ++ b.producers }

/-- The activities that those of a step wait for: the ones of the steps that it waits for, and in a step of the
definition the ones that prepare its machine. -/
def waitsFor (b : Build) (role : Role) (machine : Machine) (dependsOn : List String) : List ObjectId :=
  dependsOn.flatMap b.activitiesOf ++ if role = .step then b.preparation machine else []

/-- The build with what a step came to. -/
def addStep (b : Build) (s : CompiledStep) (objects : List Object) (artifacts : List Step.Artifact) :
    Except Error Build := do
  let graph ← (b.graph.addAll objects).mapError .workflow
  let b := { b with graph, steps := b.steps ++ [s], artifacts := b.artifacts ++ artifacts }
  let b := b.addOutput s.id s.output
  return if s.role = .step then { b with lastOutput := s.output } else b

/-- The build with what a step expands to, its machine being there. -/
def place (p : Plan) (s : PlannedStep) (type : Step.StepType) (b : Build) : Except Error Build := do
  let kind := type.kind
  let b ← b.provideWarehouse p kind
  let (input, b) ← b.resolveInput s
  let dependsOn ← b.predecessors s input
  let arguments := Descriptor.withDefaults s.descriptor.arguments type.defaults
  let e ← (Step.expand kind arguments (b.context p s kind.machine input)).mapError .step
  let waitsFor := b.waitsFor s.role kind.machine dependsOn
  let compiled : CompiledStep := {
    id := s.id
    kind
    role := s.role
    activities := e.activities
    dependsOn
    input
    output := e.output }
  b.addStep compiled (e.objects.map (·.mapActivity (·.addDependencies waitsFor))) e.artifacts

/-- Expands a step, where `prepare` adds the machine that it needs. -/
def expandWith (p : Plan) (prepare : Machine → Build → Except Error Build) (s : PlannedStep)
    (b : Build) : Except Error Build := do
  if (b.step? s.id).isSome then throw (.input (.repeatedStep s.id))
  let type ← p.resolve s.descriptor
  place p s type (← prepare type.kind.machine b)

/-! ### Preparing a machine -/

/-- The start of the ids of steps that prepare a machine. -/
def bootstrapStart : Machine → String
  | .ec2 => "BootstrapEc2"
  | .emr => "BootstrapEmr"
  | .none => "Bootstrap"

/-- Expands the steps that prepare a machine, each one waiting for the one before it. -/
def expandBootstrap (p : Plan) (expand : PlannedStep → Build → Except Error Build) (machine : Machine)
    (position : Nat) (previous : Option String) : List Value → Build → Except Error Build
  | [], b => .ok b
  | v :: vs, b => do
    let d ← (Descriptor.ofValue v).mapError .step
    let id ← p.stepId (bootstrapStart machine) d position
    let b ← expand { descriptor := d, id, role := .bootstrap, after := previous.toList } b
    let b := b.addPreparation (b.activitiesOf id) machine
    expandBootstrap p expand machine (position + 1) (some id) vs b

/-- The build with a machine and the steps that prepare it.  These may need another machine, `depth` of them
one inside the other. -/
def prepare (p : Plan) : (depth : Nat) → Machine → Build → Except Error Build
  | 0, _, b => .ok b
  | depth + 1, machine, b =>
    if b.isReady machine then .ok b
    else do
      let b ← b.addMachine p machine
      expandBootstrap p (expandWith p (prepare p depth)) machine 0 none (p.bootstrap machine) b

/-- How many machines there are; more of them never wait for each other. -/
def machines : Nat := 2

/-- Expands a step. -/
def expand (p : Plan) (s : PlannedStep) (b : Build) : Except Error Build :=
  expandWith p (prepare p machines) s b

/-! ### All steps -/

/-- Expands the steps of the definition from a position on. -/
def expandSteps (p : Plan) (position : Nat) : List Descriptor → Build → Except Error Build
  | [], b => .ok b
  | d :: ds, b => do
    let id ← p.stepId "" d position
    let b ← expand p { descriptor := d, id, role := .step } b
    expandSteps p (position + 1) ds b

/-- Expands the step that runs behind all others.  Its machine comes first, because it waits for the steps
that prepare that machine too. -/
def expandTeardown (p : Plan) (b : Build) : Except Error Build := do
  match ← p.teardown? with
  | none => return b
  | some d =>
    let kind := (← p.resolve d).kind
    let b ← prepare p machines kind.machine b
    let id := d.name.getD ("Teardown" ++ kind.idStart)
    expand p { descriptor := d, id, role := .teardown, after := b.steps.map (·.id) } b

end Build

end EtlFlow.Pipeline
