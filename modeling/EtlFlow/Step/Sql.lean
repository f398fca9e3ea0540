import EtlFlow.Step.Executor
import EtlFlow.Warehouse.History
/-!
# Steps that run SQL
-/

namespace EtlFlow.Step

open Yaml Workflow

/-! ### Commands -/

/-- The arguments of a command of the warehouse. -/
structure SqlArguments where
  command : Option String
  script : Option String
  arguments : List String
  queue : Option String
  transaction : Bool

/-- How they are written. -/
def SqlArguments.fields : Fields SqlArguments :=
  SqlArguments.mk <$> .optional "command" Decode.string
    <*> .optional "script" Decode.string
    <*> .withDefault "script_arguments" (Decode.list Decode.string) []
    <*> .optional "queue" Decode.string
    <*> .withDefault "wrap_transaction" Decode.bool false

/-- A script, as one transaction if that is asked for. -/
def SqlArguments.wrapped (a : SqlArguments) (s : Sql.Script) : Sql.Script :=
  if a.transaction then s.inTransaction else s

/-- The text of a command, or the place of its script and what is staged there. -/
def SqlArguments.content (a : SqlArguments) (c : Context) :
    Except Error (Option String × Option Artifact) := do
  match a.command with
  | some sql => return (some (a.wrapped (.ofText sql)).sql, none)
  | none =>
    let path := a.script.getD ""
    let script := a.wrapped (← c.readScript path)
    let target := c.paths.source.joinFile (← fileName path)
    return (none, some ⟨target, .text script.sql⟩)

/-- Runs SQL in the warehouse. -/
def sqlCommand (c : Context) (a : SqlArguments) : Except Error Expansion := do
  exactlyOne [("command", a.command.isSome), ("script", a.script.isSome)]
  let database ← c.requireWarehouse
  let (text, artifact) ← a.content c
  let run ← c.activity "" (.sql {
    database
    text
    script := artifact.map (·.destination)
    arguments := a.arguments
    queue := a.queue })
  return ({ artifacts := artifact.toList } : Expansion).addActivity run

/-! ### Merging rows -/

/-- The source that a script defines. -/
def sourceOfScript (s : Sql.Script) : Except Warehouse.Error Warehouse.Source :=
  if s.createsTable then (Warehouse.Table.ofScript s).map .ofTable
  else if s.createsView then (Warehouse.View.ofScript s).map .ofView
  else (Warehouse.Query.parse s.sql).map .ofQuery

/-- The source of rows: a definition in a file, or a query. -/
def readSource (c : Context) (path sql : Option String) : Except Error Warehouse.Source := do
  match path, sql with
  | some path, none => (sourceOfScript (← c.readScript path)).mapError .warehouse
  | none, some sql => ((Warehouse.Query.parse sql).map .ofQuery).mapError .warehouse
  | _, _ => refuse .noSource

/-- A script as one transaction. -/
def transaction (commands : List Warehouse.Command) : Sql.Script :=
  (Warehouse.Command.script commands).inTransaction

/-- The arguments of a merge. -/
structure UpsertArguments where
  source : Option String
  sql : Option String
  destination : String
  enforceKey : Bool
  deleteExisting : Bool
  history : Option String
  analyze : Bool

/-- How they are written. -/
def UpsertArguments.fields : Fields UpsertArguments :=
  UpsertArguments.mk <$> .optional "source" Decode.string
    <*> .optional "sql" Decode.string
    <*> .required "destination" Decode.string
    <*> .withDefault "enforce_primary_key" Decode.bool true
    <*> .withDefault "delete_existing" Decode.bool false
    <*> .optional "history" Decode.string
    <*> .withDefault "analyze_table" Decode.bool true

/-- The commands that fold a table into the history table of a file. -/
def foldHistory (c : Context) (snapshot : Warehouse.Table) (path : String) :
    Except Error (List Warehouse.Command) := do
  let table ← c.readTable path
  (do (← Warehouse.HistoryTable.ofTable table).update snapshot).mapError .warehouse

/-- Merges the rows of a source into a table, and the table into its history. -/
def upsert (c : Context) (a : UpsertArguments) : Except Error Expansion := do
  let destination ← c.readTable a.destination
  let source ← readSource c a.source a.sql
  let merge ← (destination.upsert source a.enforceKey a.deleteExisting).mapError .warehouse
  let fold ← a.history.toList.mapM (foldHistory c destination)
  let run ← runScript c "" destination (transaction (merge ++ fold.flatten)) a.analyze false
  return ({} : Expansion).addActivity run

/-- The arguments of a reload. -/
structure ReloadArguments where
  source : Option String
  sql : Option String
  destination : String
  analyze : Bool

/-- How they are written. -/
def ReloadArguments.fields : Fields ReloadArguments :=
  ReloadArguments.mk <$> .optional "source" Decode.string
    <*> .optional "sql" Decode.string
    <*> .required "destination" Decode.string
    <*> .withDefault "analyze_table" Decode.bool true

/-- Replaces the rows of a table by those of a source. -/
def reload (c : Context) (a : ReloadArguments) : Except Error Expansion := do
  let destination ← c.readTable a.destination
  let source ← readSource c a.source a.sql
  let commands ← (destination.reload source).mapError .warehouse
  let run ← runScript c "" destination (transaction commands) a.analyze false
  return ({} : Expansion).addActivity run

/-! ### Other SQL -/

/-- The arguments of SQL that refreshes a table. -/
structure RefreshArguments where
  definition : String
  script : Option String
  command : Option String
  analyze : Bool
  nonTransactional : Bool

/-- How they are written. -/
def RefreshArguments.fields : Fields RefreshArguments :=
  RefreshArguments.mk <$> .required "table_definition" Decode.string
    <*> .optional "script" Decode.string
    <*> .optional "command" Decode.string
    <*> .withDefault "analyze_table" Decode.bool true
    <*> .withDefault "non_transactional" Decode.bool false

/-- Creates a table where it is missing and runs SQL that refreshes it. -/
def createUpdateSql (c : Context) (a : RefreshArguments) : Except Error Expansion := do
  exactlyOne [("script", a.script.isSome), ("command", a.command.isSome)]
  let table ← c.readTable a.definition
  let script ← match a.script with
    | some path => c.readScript path
    | none => pure (.ofText (a.command.getD ""))
  if script.statements = [] then throw (.input .noStatements)
  let run ← runScript c "" table script a.analyze a.nonTransactional
  return ({} : Expansion).addActivity run

end EtlFlow.Step
