import EtlFlow.Step.Executor
/-!
# Steps that check data

Checks compare a table with its source, or wait for other pipelines.
-/

namespace EtlFlow.Step

open Yaml Workflow

/-! ### Primary keys -/

/-- The arguments of a check of a primary key. -/
structure KeyCheckArguments where
  definition : String
  options : CheckOptions

/-- How they are written. -/
def KeyCheckArguments.fields : Fields KeyCheckArguments :=
  KeyCheckArguments.mk <$> .required "table_definition" Decode.string <*> CheckOptions.fields

/-- Checks the primary key of a table. -/
def primaryKeyCheck (c : Context) (a : KeyCheckArguments) : Except Error Expansion := do
  let table ← c.readTable a.definition
  requirePrimaryKey table "primary-key-check"
  return ({} : Expansion).addActivity (← checkPrimaryKey c "" table a.options)

/-! ### Comparisons -/

/-- How far the two sides of a comparison may differ if nothing else is said. -/
def defaultTolerance : Number.Real64 := .ofInt 1

/-- The statement that a text holds. -/
def readStatement (sql : String) : Except Error Sql.Statement := (Sql.Statement.parse sql).mapError .sql

/-- A query that counts the rows of another one. -/
def countQuery (sql name : String) : Except Error String := do
  return "SELECT COUNT(1) FROM (" ++ (← readStatement sql).text ++ ") AS " ++ name

/-- The argument for the host of the source, which must be a known one. -/
def hostArgument (c : Context) (host : Option String) : Except Error (List String) := do
  match host with
  | none => return []
  | some name =>
    let _ ← (c.settings.mysqlHost name).mapError .settings
    return [option "source_host" name]

/-- The arguments of a comparison of numbers of rows. -/
structure CountCheckArguments where
  source : String
  host : Option String
  query : Option String
  definition : Option String
  tolerance : Number.Real64
  options : CheckOptions

/-- How they are written. -/
def CountCheckArguments.fields : Fields CountCheckArguments :=
  CountCheckArguments.mk <$> .required "source_sql" Decode.string
    <*> .optional "source_host" Decode.string
    <*> .optional "destination_sql" Decode.string
    <*> .optional "destination_table_definition" Decode.string
    <*> .withDefault "tolerance" Decode.real defaultTolerance
    <*> CheckOptions.fields

/-- The query that counts the rows of the destination. -/
def CountCheckArguments.destination (a : CountCheckArguments) (c : Context) : Except Error String := do
  match a.query with
  | some sql => countQuery sql "destination"
  | none => return "SELECT COUNT(1) FROM " ++ (← c.readTable (a.definition.getD "")).fullName

/-- Compares the numbers of rows of a query and of the destination. -/
def countCheck (c : Context) (a : CountCheckArguments) : Except Error Expansion := do
  exactlyOne [("destination_sql", a.query.isSome),
    ("destination_table_definition", a.definition.isSome)]
  let destination ← a.destination c
  let source ← countQuery a.source "source"
  let host ← hostArgument c a.host
  let run ← runCheck c "" "count_check.sh"
    ([option "source_sql" source] ++ host ++
      [option "destination_sql" destination, option "tolerance" a.tolerance.plain]) a.options
  return ({} : Expansion).addActivity run

/-- The arguments of a comparison of columns. -/
structure ColumnCheckArguments where
  source : String
  host : Option String
  definition : String
  sampleSize : Nat
  tolerance : Number.Real64
  options : CheckOptions

/-- How they are written. -/
def ColumnCheckArguments.fields : Fields ColumnCheckArguments :=
  ColumnCheckArguments.mk <$> .required "source_sql" Decode.string
    <*> .optional "source_host" Decode.string
    <*> .required "destination_table_definition" Decode.string
    <*> .withDefault "sample_size" (Decode.natural 32) 100
    <*> .withDefault "tolerance" Decode.real defaultTolerance
    <*> CheckOptions.fields

/-- Compares the columns of some rows, found by the key of the destination. -/
def columnCheck (c : Context) (a : ColumnCheckArguments) : Except Error Expansion := do
  let table ← c.readTable a.definition
  requirePrimaryKey table "column-check"
  let source ← readStatement a.source
  let host ← hostArgument c a.host
  let columns := ", ".intercalate table.columnNames
  let run ← runCheck c "" "column_check.sh"
    ([option "source_sql" source.text] ++ host ++
      [option "destination_sql" ("SELECT " ++ columns ++ " FROM " ++ table.fullName),
        option "primary_key" (",".intercalate table.primaryKeys),
        option "sample_size" (toString a.sampleSize), option "tolerance" a.tolerance.plain])
    a.options
  return ({} : Expansion).addActivity run

/-! ### Other pipelines -/

/-- The day of the run, which the orchestrator fills in. -/
def scheduledDay : String := "#\x7bformat(@scheduledStartTime,'YYYY-MM-dd')\x7d"

/-- The arguments for waiting for other pipelines. -/
structure WaitArguments where
  pipelines : List String
  refreshRate : Nat
  startDate : Option String
  ignoreFailed : Bool

/-- How they are written. -/
def WaitArguments.fields : Fields WaitArguments :=
  WaitArguments.mk <$> .required "dependent_pipelines" (Decode.list Decode.string)
    <*> .withDefault "refresh_rate" (Decode.natural 32) 300
    <*> .optional "start_date" Decode.string
    <*> .withDefault "ignore_failed" Decode.bool false

/-- Waits until other pipelines have ended their run of the day. -/
def pipelineDependencies (c : Context) (a : WaitArguments) : Except Error Expansion := do
  if a.pipelines = [] then throw (.input .noPipelines)
  let run ← execute c "" "pipeline_dependency_check.sh"
    ([option "pipeline_name" c.pipeline, option "dependencies" (",".intercalate a.pipelines),
        option "refresh_rate" (toString a.refreshRate),
        option "start_date" (a.startDate.getD scheduledDay)] ++
      optionOf "sns_topic_arn" c.topic ++ switch "ignore_failed" a.ignoreFailed)
  return ({} : Expansion).addActivity run

end EtlFlow.Step
