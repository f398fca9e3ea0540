import EtlFlow.Sequence
import EtlFlow.Workflow.Record
/-!
# Activities

An activity is work that runs on a machine: what it reads and writes, what it waits for, and how often it is
tried.  It never waits for itself, and for nothing twice.
-/

namespace EtlFlow.Workflow

/-- What runs an activity. -/
inductive Runner where
  | resource (id : ObjectId)
  | workerGroup (name : String)
  deriving DecidableEq, Repr

/-- The machine that runs an activity. -/
def Runner.resource? : Runner → Option ObjectId
  | resource id => some id
  | workerGroup _ => none

/-- The field for what runs an activity. -/
def Runner.fields : Runner → List Field
  | resource id => Field.reference "runsOn" id
  | workerGroup name => Field.text "workerGroup" name

/-- A command of a shell, given as text or as a script. -/
structure ShellCommand where
  command : Option String := none
  script : Option Storage.Location := none
  arguments : List String := []
  /-- Inputs and outputs are copied to and from the machine. -/
  stages : Bool := true
  deriving DecidableEq, Repr

/-- A command of a database, given as text or as a script. -/
structure SqlCommand where
  database : ObjectId
  text : Option String := none
  script : Option Storage.Location := none
  arguments : List String := []
  queue : Option String := none
  deriving DecidableEq, Repr

/-- What an activity does. -/
inductive Work where
  | shell (command : ShellCommand)
  | copy
  | load (insertMode : String) (options : List String)
  | emr (steps : List String)
  | sql (command : SqlCommand)
  deriving DecidableEq, Repr

namespace Work

/-- The name of the kind of work. -/
def typeName : Work → String
  | shell _ => "ShellCommandActivity"
  | copy => "CopyActivity"
  | load .. => "RedshiftCopyActivity"
  | emr _ => "EmrActivity"
  | sql _ => "SqlActivity"

/-- The fields of the work itself. -/
def fields : Work → List Field
  | shell c =>
    Field.texts "command" c.command.toList ++
      Field.texts "scriptUri" (c.script.toList.map (·.uri)) ++
      Field.texts "scriptArgument" c.arguments ++
      if c.stages then Field.text "stage" "true" else []
  | copy => []
  | load mode options => Field.text "insertMode" mode ++ Field.texts "commandOptions" options
  | emr steps => Field.texts "step" steps
  | sql c =>
    Field.reference "database" c.database ++ Field.texts "script" c.text.toList ++
      Field.texts "scriptUri" (c.script.toList.map (·.uri)) ++
      Field.texts "scriptArgument" c.arguments ++ Field.texts "queue" c.queue.toList

end Work

/-- An activity. -/
structure Activity where
  id : ObjectId
  work : Work
  schedule : ObjectId
  runner : Runner
  inputs : List ObjectId := []
  outputs : List ObjectId := []
  maxRetries : Nat := 0
  retryDelay : String := "10 Minutes"
  onFail : Option ObjectId := none
  dependsOn : List ObjectId := []
  nodup_dependsOn : dependsOn.Nodup := by exact List.nodup_nil
  not_dependsOn_self : id ∉ dependsOn := by exact List.not_mem_nil
  deriving DecidableEq, Repr

namespace Activity

/-- The activity with further inputs. -/
def withInputs (a : Activity) (ids : List ObjectId) : Activity :=
  { a with inputs := Sequence.addAll a.inputs ids }

/-- The activity with a further output. -/
def withOutput (a : Activity) (id : ObjectId) : Activity :=
  { a with outputs := Sequence.addNew a.outputs id }

/-- The activity waiting for one more.  It does not wait for itself. -/
def addDependency (a : Activity) (id : ObjectId) : Activity :=
  if h : id = a.id then a
  else
    { a with
      dependsOn := Sequence.addNew a.dependsOn id
      nodup_dependsOn := Sequence.nodup_addNew a.nodup_dependsOn id
      not_dependsOn_self := by simpa [a.not_dependsOn_self] using Ne.symm h }

/-- The activity waiting for further ones. -/
def addDependencies (a : Activity) (ids : List ObjectId) : Activity := ids.foldl addDependency a

/-- The activity waiting for nothing. -/
def independent (a : Activity) : Activity :=
  { a with dependsOn := [], nodup_dependsOn := List.nodup_nil, not_dependsOn_self := List.not_mem_nil }

/-- The activity waiting for exactly the given ones. -/
def setDependencies (a : Activity) (ids : List ObjectId) : Activity :=
  a.independent.addDependencies ids

@[simp]
theorem id_addDependency (a : Activity) (id : ObjectId) : (a.addDependency id).id = a.id := by
  unfold addDependency
  split <;> rfl

@[simp]
theorem id_addDependencies (a : Activity) (ids : List ObjectId) :
    (a.addDependencies ids).id = a.id := by
  unfold addDependencies
  induction ids generalizing a with
  | nil => rfl
  | cons i is ih => simp [ih]

@[simp]
theorem id_setDependencies (a : Activity) (ids : List ObjectId) :
    (a.setDependencies ids).id = a.id := by
  simp [setDependencies, independent]

/-- An activity waits for one more than before, unless that is itself. -/
theorem mem_addDependency {a : Activity} {id d : ObjectId} :
    d ∈ (a.addDependency id).dependsOn ↔ d ∈ a.dependsOn ∨ (d = id ∧ id ≠ a.id) := by
  unfold addDependency
  split
  · simp_all
  · simp [*]

/-- The activity as a record. -/
def record (a : Activity) : Record :=
  .ofType a.id a.work.typeName
    (Field.reference "schedule" a.schedule ++ a.runner.fields ++
      Field.references "input" a.inputs ++ Field.references "output" a.outputs ++
      Field.references Field.dependsOn a.dependsOn ++
      Field.number "maximumRetries" a.maxRetries ++ Field.text "retryDelay" a.retryDelay ++
      Field.references "onFail" a.onFail.toList ++ a.work.fields)

end Activity

end EtlFlow.Workflow
