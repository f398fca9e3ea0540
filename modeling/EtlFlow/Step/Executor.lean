import EtlFlow.Step.Arguments
import EtlFlow.Warehouse.Relation
/-!
# Executors

Programs on the machines that load tables, run SQL and check data.  They get all they need as arguments.
-/

namespace EtlFlow.Step

open Yaml Workflow

/-- An activity that runs an executor. -/
def execute (c : Context) (ending executor : String) (arguments : List String) :
    Except Error Activity :=
  c.activity ending
    (.shell { command := some (c.settings.etl.executor executor), arguments, stages := false })

/-- A table must have a primary key. -/
def requirePrimaryKey (t : Warehouse.Table) (purpose : String) : Except Error Unit :=
  if t.primaryKeys = [] then .error (.noPrimaryKey purpose t.fullName) else .ok ()

/-! ### Loading -/

/-- How a table is loaded. -/
structure LoaderOptions where
  maxError : Option Nat
  replaceInvalid : Option String
  noEscape : Bool
  gzip : Bool
  commandOptions : Option String

namespace LoaderOptions

/-- How that is written. -/
def fields : Fields LoaderOptions :=
  LoaderOptions.mk <$> .optional "max_error" (Decode.natural 32)
    <*> .optional "replace_invalid_char" Decode.string
    <*> .withDefault "no_escape" Decode.bool false
    <*> .withDefault "gzip" Decode.bool false
    <*> .optional "command_options" Decode.string

/-- The arguments of the loader. -/
def arguments (o : LoaderOptions) : List String :=
  optionOf "max_error" (o.maxError.map toString) ++ optionOf "replace_invalid_char" o.replaceInvalid ++
    switch "no_escape" o.noEscape ++ switch "gzip" o.gzip ++
    optionOf "command_options" o.commandOptions

end LoaderOptions

/-- Creates a table where it is missing and loads a node of the object store into it. -/
def loadTable (c : Context) (ending : String) (t : Warehouse.Table)
    (input : ObjectId × Storage.Location) (o : LoaderOptions) : Except Error Activity := do
  let load ← execute c ending "create_load_redshift.sh"
    ([option "table_definition" t.statement.sql, option "s3_input_paths" input.2.uri] ++ o.arguments)
  return load.withInputs [input.1]

/-! ### Running SQL -/

/-- Creates a table where it is missing and runs a script. -/
def runScript (c : Context) (ending : String) (t : Warehouse.Table) (script : Sql.Script)
    (analyze nonTransactional : Bool) : Except Error Activity :=
  execute c ending "sql_runner.sh"
    ([option "table_definition" t.statement.sql, option "sql" (oneLine script)] ++
      switch "analyze" analyze ++ switch "non_transactional" nonTransactional)

/-! ### Checking -/

/-- How a check reports. -/
structure CheckOptions where
  testName : Option String
  logs : Bool

/-- How that is written. -/
def CheckOptions.fields : Fields CheckOptions :=
  CheckOptions.mk <$> .optional "test_name" Decode.string
    <*> .withDefault "log_to_s3" Decode.bool false

/-- Runs a check. -/
def runCheck (c : Context) (ending executor : String) (arguments : List String) (o : CheckOptions) :
    Except Error Activity :=
  execute c ending executor
    (arguments ++ [option "test_name" (o.testName.getD c.id)] ++ optionOf "sns_topic_arn" c.topic ++
      if o.logs then ["--log_to_s3", option "s3_log_dir" c.checkLogs.uri] else [])

/-- Checks that the primary key of a table is one. -/
def checkPrimaryKey (c : Context) (ending : String) (t : Warehouse.Table) (o : CheckOptions) :
    Except Error Activity :=
  runCheck c ending "primary_key_check.sh"
    [option "table" t.statement.sql, option "primary_key" (",".intercalate t.primaryKeys)] o

end EtlFlow.Step
