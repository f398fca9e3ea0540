import EtlFlow.Pipeline.Build
import EtlFlow.Pipeline.Definition
/-!
# Compiling a pipeline

Hooks are functions that change a definition before it is compiled, or a pipeline behind that.  The settings say
which of them run.
-/

namespace EtlFlow.Pipeline

open Time (Instant)

/-! ### Hooks -/

/-- Hooks by name, in the order in which they run. -/
structure Hooks where
  before : List (String × (Definition → Except Error Definition)) := []
  after : List (String × (Pipeline → Except Error Pipeline)) := []

/-- Runs the hooks that the settings allow, one on the result of the other. -/
def runHooks {α : Type} (settings : Settings) (hooks : List (String × (α → Except Error α))) (a : α) :
    Except Error α :=
  (hooks.filter fun (name, _) => settings.allowsHook name).foldlM (fun a (_, hook) => hook a) a

/-- Without hooks nothing changes. -/
@[simp]
theorem runHooks_nil {α : Type} (settings : Settings) (a : α) : runHooks settings [] a = .ok a := rfl

/-! ### The compiler -/

/-- What turns definitions into pipelines. -/
structure Compiler where
  settings : Settings
  registry : Step.Registry
  files : Files.Tree
  now : Instant
  hooks : Hooks := {}

namespace Compiler

/-- The compiler of some settings. -/
def ofSettings (settings : Settings) (files : Files.Tree) (now : Instant) (hooks : Hooks := {}) :
    Except Step.Error Compiler := do
  return { settings, registry := ← Step.Registry.ofSettings settings, files, now, hooks }

/-- The name of a version. -/
def version (now : Instant) : String := "version_" ++ now.stamp

/-- What stays the same while the steps of a definition are expanded. -/
def plan (c : Compiler) (d : Definition) : Except Error Plan := do
  let etl := c.settings.etl
  let name := etl.namePrefix ++ d.name
  return {
    settings := c.settings
    registry := c.registry
    files := c.files
    definition := d
    name
    paths := ← (Paths.ofPipeline etl name (version c.now) d.frequency).mapError .settings
    topic := d.topic <|> etl.failureTopic }

/-- The schedule, the alarm and the defaults. -/
def base (p : Plan) (start : Instant) : Except Error Build := do
  let b ← ({} : Build).addObject (.schedule ⟨start.text, p.definition.frequency⟩)
  let role := p.settings.etl.pipelineRole.mapError Error.settings
  let b ← match p.topic with
    | some topic => do b.addObject (.alarm ⟨topic, p.name, ← role⟩)
    | none => pure b
  b.addObject (.defaults {
    role := ← role
    resourceRole := ← p.settings.etl.machineRole.mapError .settings
    logs := p.paths.logs
    schedule := Workflow.Schedule.id
    onFail := p.topic.map fun _ => Workflow.Alarm.id })

/-- Everything that the steps of a definition come to. -/
def build (p : Plan) (start : Instant) : Except Error Build := do
  let b ← base p start
  let b ← Build.expandSteps p 0 p.definition.steps b
  Build.expandTeardown p b

/-- The graph, its activities without what they wait for through others. -/
def reduce (g : Workflow.Graph) : Except Error Workflow.Graph := do
  let dag ← (Dependency.Dag.ofActivities g.activities).mapError .order
  let g := g.setDependencies fun a => dag.reduced a.id
  g.checkReferences.mapError .workflow
  return g

/-- The pipeline of a definition, without hooks. -/
def compileDefinition (c : Compiler) (d : Definition) : Except Error Pipeline := do
  let p ← c.plan d
  let start ← (firstStart d.frequency d.loadTime c.settings.etl.dailyLoadTime d.delta c.now).mapError
    .input
  let b ← build p start
  return {
    name := p.name
    version := version c.now
    frequency := d.frequency
    description := d.description
    tags := c.settings.etl.tags
    paths := p.paths
    graph := ← reduce b.graph
    steps := b.steps
    artifacts := b.artifacts }

/-- The pipeline of a definition. -/
def compile (c : Compiler) (d : Definition) : Except Error Pipeline := do
  let d ← runHooks c.settings c.hooks.before d
  runHooks c.settings c.hooks.after (← c.compileDefinition d)

end Compiler

end EtlFlow.Pipeline
