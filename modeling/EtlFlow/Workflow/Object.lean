import EtlFlow.Workflow.Activity
import EtlFlow.Workflow.Frequency
import EtlFlow.Workflow.Resource
/-!
# Objects of a pipeline

What a pipeline is made of: its schedule, defaults and alarm, its machines and databases, the data that it
reads and writes, and its activities.
-/

namespace EtlFlow.Workflow

/-! ### Base objects -/

/-- When a pipeline runs. -/
structure Schedule where
  start : String
  frequency : Frequency
  deriving DecidableEq, Repr

namespace Schedule

/-- The id of the schedule. -/
def id : ObjectId := "DefaultSchedule"

/-- The schedule as a record. -/
def record (s : Schedule) : Record :=
  .ofType id "Schedule"
    (Field.text "startDateTime" s.start ++ Field.text "period" s.frequency.period ++
      Field.texts "occurrences" (s.frequency.occurrences?.toList.map toString))

end Schedule

/-- What holds for all other objects of a pipeline. -/
structure Defaults where
  role : String
  resourceRole : String
  logs : Storage.Location
  schedule : ObjectId
  onFail : Option ObjectId := none
  deriving DecidableEq, Repr

namespace Defaults

/-- The id of the defaults. -/
def id : ObjectId := "Default"

/-- The defaults as a record. -/
def record (d : Defaults) : Record :=
  ⟨id, Field.text "scheduleType" "cron" ++ Field.text "failureAndRerunMode" "CASCADE" ++
    Field.text "role" d.role ++ Field.text "resourceRole" d.resourceRole ++
    Field.location "pipelineLogUri" d.logs ++ Field.reference "schedule" d.schedule ++
    Field.references "onFail" d.onFail.toList⟩

end Defaults

/-- The notice that is sent when something fails. -/
structure Alarm where
  topic : String
  pipeline : String
  role : String
  deriving DecidableEq, Repr

namespace Alarm

/-- The id of the alarm. -/
def id : ObjectId := "FailureAlarm"

/-- What the notice says; the orchestrator fills in the failing object. -/
def message : String :=
  "\n".intercalate [
    "Error for interval #\x7bnode.@scheduledStartTime\x7d..#\x7bnode.@scheduledEndTime\x7d.",
    "Object: #\x7bnode.name\x7d",
    "Error message: #\x7bnode.errorMessage\x7d",
    "Error stack trace: #\x7bnode.errorStackTrace\x7d"]

/-- The alarm as a record. -/
def record (a : Alarm) : Record :=
  .ofType id "SnsAlarm"
    (Field.text "topicArn" a.topic ++
      Field.text "subject" ("Data Pipeline Failure: " ++ a.pipeline) ++
      Field.text "message" message ++ Field.text "role" a.role)

end Alarm

/-! ### Data -/

/-- A directory or file of the object store. -/
structure StoreNode where
  id : ObjectId
  schedule : ObjectId
  path : Storage.Location
  deriving DecidableEq, Repr

/-- The data as a record. -/
def StoreNode.record (n : StoreNode) : Record :=
  .ofType n.id "S3DataNode"
    (Field.reference "schedule" n.schedule ++
      Field.location (if n.path.isDirectory then "directoryPath" else "filePath") n.path)

/-- A table of the warehouse; its name may start with a schema and a period. -/
structure TableNode where
  id : ObjectId
  schedule : ObjectId
  database : ObjectId
  fullName : String
  deriving DecidableEq, Repr

/-- The table as a record. -/
def TableNode.record (n : TableNode) : Record :=
  .ofType n.id "RedshiftDataNode"
    (Field.reference "schedule" n.schedule ++ Field.reference "database" n.database ++
      match Text.splitFirst? '.' n.fullName with
      | some (schema, name) => Field.text "schemaName" schema ++ Field.text "tableName" name
      | none => Field.text "tableName" n.fullName)

/-- The rows that a query reads from a database. -/
structure QueryNode where
  id : ObjectId
  schedule : ObjectId
  database : ObjectId
  table : String
  query : String
  deriving DecidableEq, Repr

/-- The rows as a record. -/
def QueryNode.record (n : QueryNode) : Record :=
  .ofType n.id "SqlDataNode"
    (Field.reference "schedule" n.schedule ++ Field.reference "database" n.database ++
      Field.text "table" n.table ++ Field.text "selectQuery" n.query)

/-! ### All objects -/

/-- An object of a pipeline. -/
inductive Object where
  | schedule (s : Schedule)
  | defaults (d : Defaults)
  | alarm (a : Alarm)
  | ec2 (r : Ec2Resource)
  | emr (r : EmrCluster)
  | store (n : StoreNode)
  | table (n : TableNode)
  | query (n : QueryNode)
  | redshift (d : RedshiftDatabase)
  | jdbc (d : JdbcDatabase)
  | activity (a : Activity)
  deriving DecidableEq, Repr

namespace Object

/-- The id of an object. -/
def id : Object → ObjectId
  | schedule _ => Schedule.id
  | defaults _ => Defaults.id
  | alarm _ => Alarm.id
  | ec2 _ => Ec2Resource.id
  | emr _ => EmrCluster.id
  | store n => n.id
  | table n => n.id
  | query n => n.id
  | redshift _ => RedshiftDatabase.id
  | jdbc d => d.id
  | activity a => a.id

/-- An object as a record. -/
def record : Object → Record
  | schedule s => s.record
  | defaults d => d.record
  | alarm a => a.record
  | ec2 r => r.record
  | emr r => r.record
  | store n => n.record
  | table n => n.record
  | query n => n.record
  | redshift d => d.record
  | jdbc d => d.record
  | activity a => a.record

/-- The activity that an object is. -/
def activity? : Object → Option Activity
  | activity a => some a
  | _ => none

/-- The data of the object store that an object is. -/
def store? : Object → Option StoreNode
  | store n => some n
  | _ => none

/-- The object, its activity changed if it is one. -/
def mapActivity (f : Activity → Activity) : Object → Object
  | activity a => activity (f a)
  | o => o

/-- A record has the id of its object. -/
@[simp]
theorem id_record (o : Object) : o.record.id = o.id := by
  cases o <;> rfl

theorem id_mapActivity {f : Activity → Activity} (h : ∀ a, (f a).id = a.id) (o : Object) :
    (o.mapActivity f).id = o.id := by
  cases o <;> simp [mapActivity, id, h]

end Object

end EtlFlow.Workflow
