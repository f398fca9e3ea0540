import EtlFlow.Sql.Script
import EtlFlow.Warehouse.Column
import EtlFlow.Warehouse.Header
/-!
# Tables

A table of the warehouse, read from its CREATE TABLE statement.  Keys that columns declare and keys
that the table declares are joined: a key column is flagged, and each list of keys names a column
once.  Primary keys come in the order of the columns first; distribution and sort keys in the order of
the table first.
-/

namespace EtlFlow.Warehouse

/-- Columns that point to columns of another table. -/
structure ForeignKey where
  columns : List String
  reference : Sql.Reference
  deriving DecidableEq, Repr

/-- A table and the statement that defines it. -/
structure Table where
  statement : Sql.Statement
  fullName : String
  temporary : Bool
  ifNotExists : Bool
  columns : List Column
  primaryKeys : List String
  foreignKeys : List ForeignKey
  distKeys : List String := []
  sortKeys : List String := []
  diststyle : Option Sql.DistStyle
  deriving DecidableEq, Repr

namespace Table

/-! ### Keys -/

/-- The list with one more name at its end, unless it is there. -/
def pushNew (names : List String) (name : String) : List String :=
  if name ∈ names then names else names ++ [name]

/-- The columns with the first one of a name changed. -/
def changeColumn (table name : String) (change : Column → Column) :
    List Column → Except Error (List Column)
  | [] => .error (.noColumn table name)
  | c :: cs =>
    if c.name = name then .ok (change c :: cs)
    else (changeColumn table name change cs).map (c :: ·)

/-- The table with a column in its primary key. -/
def withPrimaryKey (t : Table) (name : String) : Except Error Table :=
  (changeColumn t.fullName name Column.primary t.columns).map fun columns =>
    { t with columns, primaryKeys := pushNew t.primaryKeys name }

/-- The table with a column that rows are distributed by. -/
def withDistKey (t : Table) (name : String) : Except Error Table :=
  (changeColumn t.fullName name Column.distkey t.columns).map fun columns =>
    { t with columns, distKeys := pushNew t.distKeys name }

/-- The table with a column that rows are sorted by. -/
def withSortKey (t : Table) (name : String) : Except Error Table :=
  (changeColumn t.fullName name Column.sortkey t.columns).map fun columns =>
    { t with columns, sortKeys := pushNew t.sortKeys name }

/-- The table with a constraint, whose columns it must have. -/
def withConstraint (t : Table) : Sql.TableConstraint → Except Error Table
  | .primaryKey columns => columns.foldlM withPrimaryKey t
  | .foreignKey columns reference =>
    match columns.find? fun n => !t.columns.any (·.name == n) with
    | some n => .error (.noColumn t.fullName n)
    | none => .ok { t with foreignKeys := t.foreignKeys ++ [⟨columns, reference⟩] }

/-! ### Reading a definition -/

/-- The table of a definition before the constraints and attributes of the table itself. -/
def ofColumns (statement : Sql.Statement) (d : Sql.TableDef) : Table :=
  let columns := d.columns.map Column.ofDef
  { statement, fullName := d.fullName, temporary := d.temporary, ifNotExists := d.ifNotExists
    columns, diststyle := d.diststyle
    primaryKeys := ((columns.filter (·.isPrimary)).map (·.name)).eraseDups
    foreignKeys := columns.filterMap fun c => c.reference.map fun r => ⟨[c.name], r⟩ }

/-- The names of the columns that pass a test. -/
def namesWhere (p : Column → Bool) (t : Table) : List String := (t.columns.filter p).map (·.name)

/-- The table that a definition gives. -/
def ofDef (statement : Sql.Statement) (d : Sql.TableDef) : Except Error Table := do
  let t ← d.constraints.foldlM withConstraint (ofColumns statement d)
  let t ← (d.distkey ++ t.namesWhere (·.isDistkey)).foldlM withDistKey t
  (d.sortkey ++ t.namesWhere (·.isSortkey)).foldlM withSortKey t

/-- The table that a statement defines. -/
def ofStatement (s : Sql.Statement) : Except Error Table := do
  ofDef s (← Error.ofSql (Sql.TableDef.parse s.text))

/-- The table that a text with one statement defines. -/
def parse (sql : String) : Except Error Table := do
  ofStatement (← Error.ofSql (Sql.Statement.parse sql))

/-- The table that a script with one statement defines. -/
def ofScript (s : Sql.Script) : Except Error Table :=
  match s.statements with
  | [only] => ofStatement only
  | statements => .error (.notOneTable statements.length)

/-! ### Parts -/

/-- The names of the columns. -/
def columnNames (t : Table) : List String := t.columns.map (·.name)

/-- The first column of a name. -/
def column? (t : Table) (name : String) : Option Column := t.columns.find? (·.name == name)

/-- The columns of the primary key. -/
def primaryKeyColumns (t : Table) : List Column := t.primaryKeys.filterMap t.column?

/-- The columns outside the primary key. -/
def otherColumns (t : Table) : List Column := t.columns.filter fun c => !c.isPrimary

/-- The tables that foreign keys point to. -/
def dependencies (t : Table) : List String := (t.foreignKeys.map (·.reference.table)).eraseDups

/-- The name of a temporary table that stands in for this one.  Temporary tables have no schema, so
the schema becomes part of the name. -/
def flatName (t : Table) (ending : String) : String := Text.replaceChar '.' "_" t.fullName ++ ending

/-- The name of the temporary copy. -/
def temporaryName (t : Table) : String := t.flatName "_temp"

/-- The same table under another name. -/
def renamed (t : Table) (name : String) : Except Error Table :=
  parse (Header.rename name t.statement.text)

/-- The purpose needs a primary key. -/
def requireKey (t : Table) (purpose : String) : Except Error Unit :=
  if t.primaryKeys.isEmpty then .error (.noPrimaryKey purpose t.fullName) else .ok ()

end Table

end EtlFlow.Warehouse
