import EtlFlow.Warehouse.Command
import EtlFlow.Warehouse.Query
/-!
# Relations

A relation is a table or a view.  Relations are created with permissions, dropped, and read as a
whole.
-/

namespace EtlFlow.Warehouse

/-- A permission on every relation that is created, for a user, a group, or both. -/
structure Permission where
  privilege : String
  user : Option String := none
  group : Option String := none
  grantOption : Bool := false
  deriving DecidableEq, Repr

/-- The permission is for someone. -/
def Permission.hasGrantee (p : Permission) : Bool := p.user.isSome || p.group.isSome

/-- The commands that grant a permission on a relation. -/
def Permission.grants (relation : String) (p : Permission) : List Command :=
  (p.user.toList.map fun u => .grant p.privilege relation (.user u p.grantOption)) ++
    p.group.toList.map fun g => .grant p.privilege relation (.group g)

/-- The script that grants permissions on a relation. -/
def grantScript (relation : String) (permissions : List Permission) : Sql.Script :=
  Command.script (permissions.flatMap (·.grants relation))

/-- A table or a view. -/
inductive Relation where
  | table (t : Table)
  | view (v : View)
  deriving DecidableEq, Repr

namespace Relation

/-- The relation that a statement defines. -/
def ofStatement (s : Sql.Statement) : Except Error Relation :=
  if s.createsTable then (Table.ofStatement s).map .table
  else if s.createsView then (View.ofStatement s).map .view
  else .error (.notRelation s.text)

/-- The name, with its schema. -/
def fullName : Relation → String
  | .table t => t.fullName
  | .view v => v.fullName

/-- The word for what the relation is. -/
def kind : Relation → String
  | .table _ => "TABLE"
  | .view _ => "VIEW"

/-- The statement that defines the relation. -/
def statement : Relation → Sql.Statement
  | .table t => t.statement
  | .view v => v.statement

/-- The relations that this one refers to. -/
def dependencies : Relation → List String
  | .table t => t.dependencies
  | .view v => v.query.dependencies

/-- The schema, where the name has one. -/
def schema? (r : Relation) : Option String := (Text.splitLast? '.' r.fullName).map (·.1)

/-- The name without its schema. -/
def localName (r : Relation) : String :=
  ((Text.splitLast? '.' r.fullName).map (·.2)).getD r.fullName

/-! ### Scripts -/

/-- Creates the relation and grants permissions on it. -/
def createScript (r : Relation) (permissions : List Permission) : Sql.Script :=
  ⟨[r.statement]⟩ ++ grantScript r.fullName permissions

/-- Drops the relation and whatever hangs on it. -/
def dropScript (r : Relation) : Sql.Script := Command.script [.dropRelation r.kind r.fullName]

/-- Drops the relation and creates it anew. -/
def recreateScript (r : Relation) (permissions : List Permission) : Sql.Script :=
  r.dropScript ++ r.createScript permissions

/-- Reads all rows. -/
def selectScript (r : Relation) : Sql.Script := Command.script [.readAll r.fullName]

end Relation

end EtlFlow.Warehouse
