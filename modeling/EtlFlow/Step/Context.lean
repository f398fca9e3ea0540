import EtlFlow.Settings.Basic
import EtlFlow.Step.Error
import EtlFlow.Workflow.Object
/-!
# What a step is expanded in
-/

namespace EtlFlow.Step

open Workflow (ObjectId)

/-! ### Nodes -/

/-- A node as the steps that read it see it. -/
structure NodeRef where
  id : ObjectId
  /-- The place of a node of the object store. -/
  path : Option Storage.Location
  deriving DecidableEq, Repr

/-- A node of the object store as the steps that read it see it. -/
def NodeRef.ofStore (n : Workflow.StoreNode) : NodeRef := ⟨n.id, some n.path⟩

/-- The nodes that a step reads or writes. -/
inductive Nodes where
  | none
  | single (node : NodeRef)
  /-- Nodes by name, sorted by it. -/
  | named (nodes : List (String × NodeRef))
  deriving DecidableEq, Repr

namespace Nodes

/-- All nodes. -/
def refs : Nodes → List NodeRef
  | none => []
  | single n => [n]
  | named ns => ns.map (·.2)

/-- The ids of all nodes. -/
def ids (ns : Nodes) : List ObjectId := ns.refs.map (·.id)

/-- The node, where this is exactly one node of the object store. -/
def singleStore? : Nodes → Option NodeRef
  | single n => if n.path.isSome then some n else Option.none
  | _ => Option.none

end Nodes

/-! ### Context -/

/-- The directories of a step in the object store. -/
structure Paths where
  source : Storage.Location
  data : Storage.Location
  logs : Storage.Location
  deriving DecidableEq, Repr

/-- What a step is expanded in. -/
structure Context where
  id : String
  settings : Settings
  files : Files.Tree
  /-- The directory that file names of the pipeline start from. -/
  baseDirectory : String
  pipeline : String
  frequency : Workflow.Frequency
  schedule : ObjectId
  runner : Option Workflow.Runner
  /-- The series of the image of the cluster, where there is one. -/
  imageSeries : Option Nat
  warehouse : Option ObjectId
  input : Nodes
  maxRetries : Nat
  alarm : Option ObjectId
  topic : Option String
  paths : Paths
  checkLogs : Storage.Location

namespace Context

/-- The id of an object of the step. -/
def sub (c : Context) (ending : String) : ObjectId := c.id ++ ending

/-- What runs the activities of the step. -/
def requireRunner (c : Context) : Except Error Workflow.Runner := demand .noRunner c.runner

/-- The warehouse. -/
def requireWarehouse (c : Context) : Except Error ObjectId := demand .noWarehouse c.warehouse

/-- The series of the image of the cluster. -/
def requireCluster (c : Context) : Except Error Nat := demand .noCluster c.imageSeries

/-- The node of the object store that the step reads, and its place. -/
def requireStore (c : Context) : Except Error (ObjectId × Storage.Location) :=
  match c.input with
  | .single ⟨id, some path⟩ => .ok (id, path)
  | _ => refuse .noStoreInput

/-- An activity of the step, with the schedule, the runner, the retries and the alarm of the pipeline. -/
def activity (c : Context) (ending : String) (work : Workflow.Work) :
    Except Error Workflow.Activity := do
  return {
    id := c.sub ending
    work
    schedule := c.schedule
    runner := ← c.requireRunner
    maxRetries := c.maxRetries
    retryDelay := c.settings.etl.retryDelay
    onFail := c.alarm }

/-- A node of the object store that the step makes. -/
def store (c : Context) (ending : String) (path : Storage.Location) : Workflow.StoreNode :=
  ⟨c.sub ending, c.schedule, path⟩

/-- The path of a file that the step names. -/
def resolve (c : Context) (path : String) : String := Files.resolve c.baseDirectory path

/-- The script that a file holds. -/
def readScript (c : Context) (path : String) : Except Error Sql.Script :=
  (Sql.Script.ofFile c.files (c.resolve path)).mapError .sql

/-- The table that a file defines. -/
def readTable (c : Context) (path : String) : Except Error Warehouse.Table := do
  (Warehouse.Table.ofScript (← c.readScript path)).mapError .warehouse

end Context

/-! ### Expansion -/

/-- What a staged file is made from. -/
inductive Content where
  | text (s : String)
  | file (path : String)
  | directory (path : String)
  deriving DecidableEq, Repr

/-- A file or directory that is uploaded before the pipeline starts. -/
structure Artifact where
  destination : Storage.Location
  content : Content
  deriving DecidableEq, Repr

/-- What a step expands to: objects, the ids of the activities, the nodes that later steps can read,
and what is staged. -/
structure Expansion where
  objects : List Workflow.Object := []
  activities : List ObjectId := []
  output : Nodes := .none
  artifacts : List Artifact := []
  deriving DecidableEq, Repr

/-- Adds an activity behind the other objects and notes its id. -/
def Expansion.addActivity (e : Expansion) (a : Workflow.Activity) : Expansion :=
  { e with objects := e.objects ++ [.activity a], activities := e.activities ++ [a.id] }

end EtlFlow.Step
