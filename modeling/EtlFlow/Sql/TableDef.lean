/-!
# Table definitions

What a CREATE TABLE statement says: the columns in their order, the constraints and the distribution
attributes of the table.
-/

namespace EtlFlow.Sql

/-- What a column says about NULL. -/
inductive Nullability where
  | unspecified
  | null
  | notNull
  deriving DecidableEq, Repr

/-- How the rows of a table are spread over the nodes of the warehouse. -/
inductive DistStyle where
  | even
  | all
  | key
  deriving DecidableEq, Repr

/-- The spelling of a distribution style. -/
def DistStyle.text : DistStyle → String
  | .even => "EVEN"
  | .all => "ALL"
  | .key => "KEY"

/-- The columns of another table that a foreign key points to. -/
structure Reference where
  table : String
  columns : List String
  deriving DecidableEq, Repr

/-- A constraint that stands beside the columns. -/
inductive TableConstraint where
  | primaryKey (columns : List String)
  | foreignKey (columns : List String) (reference : Reference)
  deriving DecidableEq, Repr

/-- A column as declared.  The type is in its own spelling, arguments included. -/
structure ColumnDef where
  name : String
  type : String
  encoding : Option String := none
  reference : Option Reference := none
  default : Option String := none
  identity : Option String := none
  isDistkey : Bool := false
  isSortkey : Bool := false
  isPrimary : Bool := false
  nullability : Nullability := .unspecified
  position : Nat
  deriving DecidableEq, Repr

/-- A table as declared. -/
structure TableDef where
  fullName : String
  temporary : Bool
  ifNotExists : Bool
  columns : List ColumnDef
  constraints : List TableConstraint
  distkey : List String
  sortkey : List String
  diststyle : Option DistStyle
  deriving DecidableEq, Repr

end EtlFlow.Sql
