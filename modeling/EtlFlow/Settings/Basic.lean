import EtlFlow.Sequence
import EtlFlow.Settings.Connection
import EtlFlow.Settings.Machines
import EtlFlow.Warehouse.Relation
import EtlFlow.Yaml.Document
/-!
# Settings

What holds for every pipeline, the machines, the connections, the permissions on new relations, and the steps
around every pipeline.
-/

namespace EtlFlow

open Yaml

/-! ### Parts -/

namespace Settings

/-- Steps that prepare the machines. -/
structure Bootstrap where
  ec2 : List Value := []
  emr : List Value := []
  deriving Repr

/-- How the steps that prepare the machines are written. -/
def Bootstrap.fields : Fields Bootstrap :=
  Bootstrap.mk <$> .withDefault "ec2" (Decode.list Decode.raw) []
    <*> .withDefault "emr" (Decode.list Decode.raw) []

/-- No machine is prepared. -/
def Bootstrap.isEmpty (b : Bootstrap) : Bool := b.ec2.isEmpty && b.emr.isEmpty

/-- A type of step that stands for another one with preset arguments. -/
structure CustomStep where
  stepType : String
  base : String
  defaults : Value.Entries := []
  deriving Repr

/-- How a custom type of step is written. -/
def CustomStep.fields : Fields CustomStep :=
  CustomStep.mk <$> .required "step_type" Decode.string
    <*> .required "base" Decode.string
    <*> .withDefault "defaults" Decode.entries []

/-- The form of log lines. -/
inductive LogFormat where
  | compact
  | pretty
  deriving DecidableEq, Repr

/-- The word for a form of log lines. -/
def LogFormat.text : LogFormat → String
  | .compact => "compact"
  | .pretty => "pretty"

/-- What is logged. -/
structure Logging where
  level : String := "info"
  format : LogFormat := .compact
  deriving DecidableEq, Repr

/-- How the settings of logging are written. -/
def Logging.fields : Fields Logging :=
  Logging.mk <$> .withDefault "level" Decode.string "info"
    <*> .withDefault "format" (Decode.word ([LogFormat.compact, .pretty].map fun f => (f.text, f)))
      .compact

/-- How a permission is written. -/
def permissionFields : Fields Warehouse.Permission :=
  Warehouse.Permission.mk <$> .required "permission" Decode.string
    <*> .optional "user" Decode.string
    <*> .optional "group" Decode.string
    <*> .withDefault "with_grant_option" Decode.bool false

/-- A permission must be for someone. -/
def checkPermission (p : Warehouse.Permission) : Except Error Unit :=
  if p.hasGrantee then .ok () else .error (.noGrantee p.privilege)

/-- The section that holds the permissions. -/
def permissionsFields : Fields (List Warehouse.Permission) :=
  .withDefault "permissions" (Decode.list permissionFields.decode) []

/-- The section that names the hooks that may run. -/
def hooksFields : Fields (List String) := .withDefault "enabled" (Decode.list Decode.string) []

end Settings

/-! ### The whole -/

/-- The settings of a run. -/
structure Settings where
  etl : Settings.Etl := {}
  ec2 : Settings.Ec2 := {}
  emr : Settings.Emr := {}
  redshift : Settings.Redshift := {}
  mysql : List (String × Settings.Host) := []
  postgres : List (String × Settings.Host) := []
  permissions : List Warehouse.Permission := []
  bootstrap : Settings.Bootstrap := {}
  teardown : Option Value := none
  customSteps : List Settings.CustomStep := []
  logging : Settings.Logging := {}
  /-- The hooks that may run; none means all. -/
  hooks : List String := []
  deriving Repr

namespace Settings

/-- How settings are written. -/
def fields : Fields Settings :=
  Settings.mk <$> .withDefault "etl" Etl.fields.decode {}
    <*> .withDefault "ec2" Ec2.fields.decode {}
    <*> .withDefault "emr" Emr.fields.decode {}
    <*> .withDefault "redshift" Redshift.fields.decode {}
    <*> .withDefault "mysql" (Decode.sortedMap Host.fields.decode) []
    <*> .withDefault "postgres" (Decode.sortedMap Host.fields.decode) []
    <*> .withDefault "database" permissionsFields.decode []
    <*> .withDefault "bootstrap" Bootstrap.fields.decode {}
    <*> .optional "teardown" Decode.raw
    <*> .withDefault "custom_steps" (Decode.list CustomStep.fields.decode) []
    <*> .withDefault "logging" Logging.fields.decode {}
    <*> .withDefault "hooks" hooksFields.decode []

/-- Every permission is for someone, and no custom type of step comes twice. -/
def check (s : Settings) : Except Error Unit := do
  s.permissions.forM checkPermission
  match Sequence.repeated? (s.customSteps.map (·.stepType)) with
  | some t => throw (.repeatedStep t)
  | none => return ()

/-- The settings that a value holds. -/
def ofValue (v : Value) : Except Error Settings := do
  let s ← (fields.decode v).mapError .decode
  s.check
  return s

/-- The settings that a YAML text holds. -/
def parse (text : String) : Except Error Settings := do
  ofValue (← (Value.parse text).mapError (.notYaml none))

/-- The MySQL host of a name. -/
def mysqlHost (s : Settings) (name : String) : Except Error Host := findHost "mysql" s.mysql name

/-- The PostgreSQL host of a name. -/
def postgresHost (s : Settings) (name : String) : Except Error Host :=
  findHost "postgres" s.postgres name

/-- A hook may run. -/
def allowsHook (s : Settings) (name : String) : Bool := s.hooks.isEmpty || s.hooks.contains name

end Settings

end EtlFlow
