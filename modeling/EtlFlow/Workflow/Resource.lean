import EtlFlow.Settings.Connection
import EtlFlow.Settings.Machines
import EtlFlow.Workflow.Record
/-!
# Machines and databases of a pipeline
-/

namespace EtlFlow.Workflow

/-- What every machine of a pipeline has. -/
structure MachineRoles where
  schedule : ObjectId
  logs : Storage.Location
  role : String
  resourceRole : String
  deriving DecidableEq, Repr

/-- The last fields of a machine. -/
def MachineRoles.fields (m : MachineRoles) : List Field :=
  Field.location "logUri" m.logs ++ Field.text "role" m.role ++
    Field.text "resourceRole" m.resourceRole

/-! ### Machines -/

/-- The machine that commands run on. -/
structure Ec2Resource extends MachineRoles where
  machine : Settings.Ec2
  deriving DecidableEq, Repr

namespace Ec2Resource

/-- The id of the machine. -/
def id : ObjectId := "Ec2Resource"

/-- The machine as a record. -/
def record (r : Ec2Resource) : Record :=
  .ofType id "Ec2Resource"
    (Field.reference "schedule" r.schedule ++
      Field.text "instanceType" r.machine.instanceType ++
      Field.texts "imageId" r.machine.image.toList ++
      Field.texts "securityGroups" r.machine.securityGroup.toList ++
      Field.texts "securityGroupIds" r.machine.securityGroupIds ++
      Field.texts "subnetId" r.machine.subnet.toList ++
      Field.texts "keyPair" r.machine.keyPair.toList ++
      Field.text "terminateAfter" r.machine.terminateAfter ++ r.toMachineRoles.fields)

end Ec2Resource

/-- The cluster that jobs run on. -/
structure EmrCluster extends MachineRoles where
  cluster : Settings.Emr
  deriving DecidableEq, Repr

namespace EmrCluster

/-- The id of the cluster. -/
def id : ObjectId := "EmrCluster"

/-- The fields for the machines that only run tasks. -/
def taskFields (c : Settings.Emr) : List Field :=
  if c.taskInstances = 0 then []
  else
    Field.texts "taskInstanceType" c.taskInstanceType.toList ++
      Field.number "taskInstanceCount" c.taskInstances ++
      Field.texts "taskInstanceBidPrice" c.taskBidPrice.toList

/-- The cluster as a record. -/
def record (r : EmrCluster) : Record :=
  .ofType id "EmrCluster"
    (Field.reference "schedule" r.schedule ++
      Field.text "masterInstanceType" r.cluster.masterInstanceType ++
      Field.text "coreInstanceType" r.cluster.coreInstanceType ++
      Field.number "coreInstanceCount" r.cluster.coreInstances ++ taskFields r.cluster ++
      Field.text "amiVersion" r.cluster.imageVersion ++
      Field.text "terminateAfter" r.cluster.terminateAfter ++
      Field.texts "keyPair" r.cluster.keyPair.toList ++
      Field.texts "subnetId" r.cluster.subnet.toList ++
      Field.texts "bootstrapAction" r.cluster.bootstrapActions ++ r.toMachineRoles.fields)

end EmrCluster

/-! ### Databases -/

/-- The warehouse. -/
structure RedshiftDatabase where
  databaseName : String
  clusterId : String
  username : String
  password : String
  deriving DecidableEq, Repr

namespace RedshiftDatabase

/-- The id of the warehouse. -/
def id : ObjectId := "RedshiftDatabase"

/-- The warehouse of the settings, of which nothing may be missing. -/
def ofSettings (s : Settings.Redshift) : Except Settings.Error RedshiftDatabase := do
  return ⟨← s.requireDatabase, ← s.requireCluster, ← s.requireUsername, ← s.requirePassword⟩

/-- The warehouse as a record. -/
def record (d : RedshiftDatabase) : Record :=
  .ofType id "RedshiftDatabase"
    (Field.text "databaseName" d.databaseName ++ Field.text "clusterId" d.clusterId ++
      Field.text "username" d.username ++ Field.text "*password" d.password)

end RedshiftDatabase

/-- A database that data is taken from. -/
structure JdbcDatabase where
  id : ObjectId
  connection : String
  driver : String
  username : String
  password : String
  deriving DecidableEq, Repr

namespace JdbcDatabase

/-- The database of a host that is reached with a driver. -/
def ofHost (scheme : String) (port : Nat) (driver : String) (id : ObjectId) (h : Settings.Host)
    (database : String) : JdbcDatabase where
  id := id
  connection := "jdbc:" ++ scheme ++ "://" ++ h.host ++ ":" ++ toString (h.port.getD port) ++ "/" ++
    database
  driver := driver
  username := h.username
  password := h.password

/-- A MySQL database. -/
def mysql : ObjectId → Settings.Host → String → JdbcDatabase :=
  ofHost "mysql" 3306 "com.mysql.jdbc.Driver"

/-- A PostgreSQL database. -/
def postgres : ObjectId → Settings.Host → String → JdbcDatabase :=
  ofHost "postgresql" 5432 "org.postgresql.Driver"

/-- The database as a record. -/
def record (d : JdbcDatabase) : Record :=
  .ofType d.id "JdbcDatabase"
    (Field.text "connectionString" d.connection ++ Field.text "jdbcDriverClass" d.driver ++
      Field.text "username" d.username ++ Field.text "*password" d.password)

end JdbcDatabase

end EtlFlow.Workflow
