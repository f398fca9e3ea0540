import EtlFlow.Step.Arguments
/-!
# Steps that bring data in
-/

namespace EtlFlow.Step

open Yaml Workflow

/-! ### Files -/

/-- Stages a local file.  Only a pipeline that runs once may do so. -/
def extractLocal (c : Context) (path : String) : Except Error Expansion := do
  if c.frequency ≠ .oneTime then throw (.input (.notOneTime c.frequency))
  let file := c.resolve path
  if !c.files.isFile file then throw (.input (.noLocalFile file))
  let place := c.paths.source.joinFile (← fileName file)
  let node := c.store "Output" place
  return {
    objects := [.store node]
    output := .single (.ofStore node)
    artifacts := [⟨place, .file file⟩] }

/-- How the arguments of a local file are written. -/
def localFields : Fields String := .required "path" Decode.string

/-- A file or a directory of the object store. -/
structure StoreArguments where
  file : Option String
  directory : Option String

/-- How a file or a directory of the object store is written. -/
def StoreArguments.fields : Fields StoreArguments :=
  StoreArguments.mk <$> .optional "file_uri" Decode.string <*> .optional "directory_uri" Decode.string

/-- The place that is named. -/
def StoreArguments.location (a : StoreArguments) : Except Error Storage.Location := do
  exactlyOne [("file_uri", a.file.isSome), ("directory_uri", a.directory.isSome)]
  let uri := a.file.getD (a.directory.getD "")
  let place ← (Storage.Location.ofUri uri).mapError fun e => .settings (.location e)
  if a.file.isNone then return .directory place.bucket place.key
  else if place.isDirectory then refuse (.directoryUri uri)
  else return place

/-- Names a file or a directory of the object store. -/
def extractStore (c : Context) (a : StoreArguments) : Except Error Expansion := do
  let node := c.store "Output" (← a.location)
  return { objects := [.store node], output := .single (.ofStore node) }

/-! ### Databases -/

/-- A kind of database that data is taken from. -/
inductive DatabaseSystem where
  | mysql
  | postgres
  deriving DecidableEq, Repr

/-- The host of a name. -/
def DatabaseSystem.host (s : DatabaseSystem) (settings : Settings) :
    String → Except Settings.Error Settings.Host :=
  match s with
  | mysql => settings.mysqlHost
  | postgres => settings.postgresHost

/-- The object for a database. -/
def DatabaseSystem.database (s : DatabaseSystem) : ObjectId → Settings.Host → String → JdbcDatabase :=
  match s with
  | mysql => .mysql
  | postgres => .postgres

/-- What is taken from a database. -/
structure DatabaseArguments where
  host : String
  database : Option String
  sql : Option String
  table : Option String

/-- How that is written. -/
def DatabaseArguments.fields : Fields DatabaseArguments :=
  DatabaseArguments.mk <$> .required "host_name" Decode.string
    <*> .optional "database" Decode.string
    <*> .optional "sql" Decode.string
    <*> .optional "table" Decode.string

/-- The table that is read, and the query. -/
def DatabaseArguments.query (a : DatabaseArguments) : Except Error (String × String) := do
  match a.table with
  | some table => return (table, "SELECT * FROM " ++ table)
  | none =>
    let statement ← (Sql.Statement.parse (a.sql.getD "")).mapError .sql
    let query ← (Warehouse.Query.parse statement.text).mapError .warehouse
    return (← demand .noTableRead query.dependencies.head?, statement.text)

/-- Turns the marks for missing values into NULL and drops NUL characters. -/
def cleanUp : String :=
  "cat " ++ "$\x7bINPUT1_STAGING_DIR\x7d/* | sed 's/\\\\n/NULL/g' | tr -d '\\000' > " ++
    "$\x7bOUTPUT1_STAGING_DIR\x7d/part-00000.tsv"

/-- Copies the rows of a query into a directory and cleans them into another one. -/
def extractDatabase (s : DatabaseSystem) (c : Context) (a : DatabaseArguments) :
    Except Error Expansion := do
  exactlyOne [("sql", a.sql.isSome), ("table", a.table.isSome)]
  let host ← (s.host c.settings a.host).mapError .settings
  let name ← demand (.noDatabase a.host) (a.database.orElse fun _ => host.database)
  let (table, query) ← a.query
  let rows : QueryNode := ⟨c.sub "SqlNode", c.schedule, c.sub "Database", table, query⟩
  let raw := c.store "Intermediate" (c.paths.data.joinDirectory "intermediate")
  let output := c.store "Output" (c.paths.data.joinDirectory "output")
  let copy ← c.activity "Copy" .copy
  let clean ← c.activity "" (.shell { command := some cleanUp })
  let nodes : Expansion := {
    objects := [.jdbc (s.database (c.sub "Database") host name), .query rows, .store raw, .store output]
    output := .single (.ofStore output) }
  return (nodes.addActivity ((copy.withInputs [rows.id]).withOutput raw.id)).addActivity
    (((clean.withInputs [raw.id]).withOutput output.id).addDependency copy.id)

/-! ### The warehouse -/

/-- A table of the warehouse. -/
structure TableArguments where
  schema : String
  table : String

/-- How a table of the warehouse is written. -/
def TableArguments.fields : Fields TableArguments :=
  TableArguments.mk <$> .required "schema" Decode.string <*> .required "table" Decode.string

/-- The name of the table with its schema. -/
def TableArguments.fullName (a : TableArguments) : String := a.schema ++ "." ++ a.table

/-- The options for copying a table out of the warehouse. -/
def unloadOptions : List String := ["DELIMITER '\\t'", "ESCAPE", "NULL AS 'NULL'"]

/-- Copies a table of the warehouse into a directory. -/
def extractRedshift (c : Context) (a : TableArguments) : Except Error Expansion := do
  let table : TableNode := ⟨c.sub "Table", c.schedule, ← c.requireWarehouse, a.fullName⟩
  let output := c.store "Output" (c.paths.data.joinDirectory "output")
  let unload ← c.activity "" (.load "OVERWRITE_EXISTING" unloadOptions)
  let nodes : Expansion := {
    objects := [.table table, .store output]
    output := .single (.ofStore output) }
  return nodes.addActivity ((unload.withInputs [table.id]).withOutput output.id)

end EtlFlow.Step
