import EtlFlow.Sql.Script
import EtlFlow.Sql.Select.Projection
import EtlFlow.Sql.Select.Reads
import EtlFlow.Warehouse.Error
/-!
# Queries and views

A query is a SELECT statement with what it reads and what it projects; a view is a query under a
name.
-/

namespace EtlFlow.Warehouse

/-- A SELECT statement. -/
structure Query where
  sql : String
  /-- The relations that it reads. -/
  dependencies : List String
  /-- The projected expressions, as written. -/
  columns : List String
  deriving DecidableEq, Repr

/-- A view and the statement that defines it. -/
structure View where
  statement : Sql.Statement
  fullName : String
  orReplace : Bool
  query : Query
  deriving DecidableEq, Repr

namespace Query

/-- The query that a text with one statement holds. -/
def parse (sql : String) : Except Error Query := Error.ofSql do
  let s ← Sql.Statement.parse sql
  return ⟨s.text, ← Sql.Select.dependencies s.text, ← Sql.Select.columns s.text⟩

end Query

namespace View

/-- The view that a statement defines. -/
def ofStatement (s : Sql.Statement) : Except Error View := do
  let d ← Error.ofSql (Sql.ViewDef.parse s.text)
  return ⟨s, d.name, d.orReplace, ← Query.parse d.body⟩

/-- The view that a text with one statement defines. -/
def parse (sql : String) : Except Error View := do
  ofStatement (← Error.ofSql (Sql.Statement.parse sql))

/-- The view that a script with one statement defines. -/
def ofScript (s : Sql.Script) : Except Error View :=
  match s.statements with
  | [only] => ofStatement only
  | statements => .error (.notOneView statements.length)

end View

end EtlFlow.Warehouse
