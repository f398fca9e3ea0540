import EtlFlow.Warehouse.Command
import EtlFlow.Warehouse.Query
import EtlFlow.Warehouse.Table
/-!
# Merging rows into a table

Rows are read from a table, a view, or a query in parentheses.  The commands that clone a table,
fill it, remove duplicate keys from it, and merge rows of such a source into it through a temporary
clone.
-/

namespace EtlFlow.Warehouse

/-! ### Sources of rows -/

/-- Something that rows are read from. -/
structure Source where
  /-- What stands behind FROM. -/
  text : String
  /-- What stands before the names of the columns. -/
  qualifier : String
  /-- The names of the columns, where they have one. -/
  columns : List (Except Sql.Error String)

namespace Source

/-- A relation with known columns. -/
def named (name : String) (columns : List String) : Source := ⟨name, name, columns.map .ok⟩

/-- A table. -/
def ofTable (t : Table) : Source := named t.fullName t.columnNames

/-- The columns of a query. -/
def queryColumns (q : Query) : List (Except Sql.Error String) := q.columns.map Sql.Select.columnName

/-- A view. -/
def ofView (v : View) : Source := ⟨v.fullName, v.fullName, queryColumns v.query⟩

/-- A query. -/
def ofQuery (q : Query) : Source := ⟨"(" ++ q.sql ++ ") AS source", "source", queryColumns q⟩

/-- How many columns a row has. -/
def width (s : Source) : Nat := s.columns.length

/-- The names of the columns, if all of them have one. -/
def names (s : Source) : Except Error (List String) := Error.ofSql (s.columns.mapM id)

end Source

namespace Table

/-! ### Single commands -/

/-- The definition with the guard IF NOT EXISTS. -/
def createIfNotExists (t : Table) : Command := .define (Header.guarded t.statement.text)

/-- The temporary clone: the columns without keys. -/
def temporaryClone (t : Table) : Command := .clone t.temporaryName t.columns

/-- The foreign keys as commands of their own. -/
def addForeignKeys (t : Table) : List Command := t.foreignKeys.map (.addForeignKey t.fullName)

/-- Inserts the rows of a source, which must not have more columns than the table. -/
def insertInto (table : String) (columns : Nat) (s : Source) : Except Error Command :=
  if columns < s.width then .error (.tooManyColumns s.text s.width table columns)
  else .ok (.insertAll table s.text)

/-- Deletes the rows whose keys equal the columns `matching` of a row of the source. -/
def deleteFrom (table : String) (keys : List String) (s : Source) (matching : List String) :
    Except Error Command :=
  if matching.length < keys.length then
    .error (.tooFewColumns s.text matching.length table keys.length)
  else .ok (.deleteMatching table keys s.text s.qualifier matching)

/-- Inserts the rows of a source. -/
def insert (t : Table) (s : Source) : Except Error Command :=
  insertInto t.fullName t.columns.length s

/-- Deletes the rows whose key is in the source, where the columns of the source stand in the order of
the keys. -/
def deleteMatching (t : Table) (s : Source) : Except Error Command := do
  t.requireKey "deleting matching rows"
  deleteFrom t.fullName t.primaryKeys s (← s.names)

/-! ### One row for each key -/

/-- Keeps one row for each key of a table with the columns and keys of `t`. -/
def keepFirst (t : Table) (table scratch : String) : List Command :=
  [.clone scratch t.columns, .insertAll scratch table, .deleteAll table,
    .insertRanked table t.columnNames t.primaryKeys scratch, .drop scratch]

/-- Keeps one row for each key. -/
def deduplicate (t : Table) : Except Error (List Command) := do
  t.requireKey "de-duplication"
  return t.keepFirst t.fullName (t.flatName "_dedupe")

/-! ### Merging -/

/-- The temporary clone as a source. -/
def staged (t : Table) : Source := .named t.temporaryName t.columnNames

/-- Removes the rows that the staged ones replace: all of them, or those with the same key. -/
def makeRoom (t : Table) (deleteExisting : Bool) : Except Error Command :=
  if deleteExisting then .ok (.deleteAll t.fullName)
  else deleteFrom t.fullName t.primaryKeys t.staged t.primaryKeys

/-- Merges the rows of a source through the temporary clone.  `enforceKey` keeps one row of the source
for each key; `deleteExisting` replaces all rows of the table. -/
def upsert (t : Table) (s : Source) (enforceKey deleteExisting : Bool) :
    Except Error (List Command) := do
  if enforceKey || !deleteExisting then t.requireKey "upsert"
  let fill ← insertInto t.temporaryName t.columns.length s
  let unique :=
    if enforceKey then t.keepFirst t.temporaryName (t.temporaryName ++ "_dedupe") else []
  let room ← t.makeRoom deleteExisting
  let move ← insertInto t.fullName t.columns.length t.staged
  return [t.createIfNotExists, t.temporaryClone, fill] ++ unique ++
    [room, move, .drop t.temporaryName]

/-- Replaces the rows of the table by those of a source, one for each key. -/
def reload (t : Table) (s : Source) : Except Error (List Command) := t.upsert s true true

end Table

end EtlFlow.Warehouse
