import EtlFlow.Files.Tree
import EtlFlow.Sql.Error
/-!
# Why the catalogue refuses

One constructor for each cause.
-/

namespace EtlFlow.Warehouse

/-- Why a relation is refused, or a script for it. -/
inductive Error where
  | duplicate (relation : String)
  /-- The statement defines neither a table nor a view. -/
  | notRelation (sql : String)
  | notOneTable (statements : Nat)
  | notOneView (statements : Nat)
  | noColumn (table column : String)
  | nullableKey (column : String)
  | noPrimaryKey (purpose table : String)
  | tooManyColumns (source : String) (found : Nat) (table : String) (declared : Nat)
  | tooFewColumns (source : String) (found : Nat) (table : String) (keys : Nat)
  | notHistory (table : String)
  | noSnapshotKey (snapshot : String)
  | nothingTracked (snapshot : String)
  | notInHistory (table column snapshot : String)
  | cycle (relations : List String)
  | invalidSql (cause : Sql.Error)
  | noDirectory (cause : Files.NoDirectory)
  deriving DecidableEq, Repr

/-- The columns that every history table starts with. -/
def effectiveColumn : String := "effective_ts"

/-- The column that tells when a version stopped being current. -/
def expirationColumn : String := "expiration_ts"

namespace Error

/-- The wording of a cause that lies in the structure of a relation. -/
def structureDetail : Error → String
  | .noColumn t c => "table '" ++ t ++ "' has no column named '" ++ c ++ "'"
  | .nullableKey c => "primary key column '" ++ c ++ "' must stay NOT NULL"
  | .noPrimaryKey p t => p ++ " needs a primary key but table '" ++ t ++ "' has none"
  | .tooManyColumns s n t m =>
    "source " ++ s ++ " projects " ++ toString n ++ " columns but '" ++ t ++ "' declares " ++
      toString m
  | .tooFewColumns s n t m =>
    "source " ++ s ++ " projects " ++ toString n ++ " columns but '" ++ t ++ "' has " ++
      toString m ++ " primary keys"
  | .notHistory t =>
    "history table '" ++ t ++ "' must start with " ++ effectiveColumn ++ " TIMESTAMP, " ++
      expirationColumn ++ " TIMESTAMP"
  | .noSnapshotKey s => "history source '" ++ s ++ "' has no primary key"
  | .nothingTracked s => "history source '" ++ s ++ "' has no non-key columns to track"
  | .notInHistory t c s =>
    "history table '" ++ t ++ "' has no column '" ++ c ++ "' from '" ++ s ++ "'"
  | _ => ""

/-- The wording of a cause. -/
def message : Error → String
  | .duplicate n => "relation already exists: relation '" ++ n ++ "' is declared twice"
  | .notRelation sql =>
    "unsupported relation: '" ++ sql ++ "' is neither a CREATE TABLE nor a CREATE VIEW"
  | .notOneTable n =>
    "unsupported relation: a table script must hold one CREATE TABLE, found " ++ toString n ++
      " statements"
  | .notOneView n =>
    "unsupported relation: a view script must hold one CREATE VIEW, found " ++ toString n ++
      " statements"
  | .cycle ns =>
    "dependency cycle between relations: unsortable relations [" ++ ", ".intercalate ns ++ "]"
  | .invalidSql cause => "SQL error: " ++ cause.message
  | .noDirectory cause => "configuration error: not found: " ++ cause.message
  | e => "SQL structure error: " ++ e.structureDetail

/-- What reading SQL gives, its error as one of the catalogue. -/
def ofSql {α : Type} (x : Except Sql.Error α) : Except Error α := x.mapError .invalidSql

end Error

end EtlFlow.Warehouse
