import EtlFlow.Warehouse.Table
/-!
# Generated commands

The statements that the catalogue writes, as values.  `Command.text` is the text of one; a script of
commands reads that text like any other SQL.
-/

namespace EtlFlow.Warehouse

/-- The expiration of a row that is current. -/
def maxTimestamp : String := "9999-12-31 23:59:59.999999"

/-- Who a permission is granted to. -/
inductive Grantee where
  | user (name : String) (grantOption : Bool)
  | group (name : String)
  deriving DecidableEq, Repr

/-- A generated statement. -/
inductive Command where
  /-- A definition in its own words. -/
  | define (sql : String)
  /-- A temporary table with columns but no keys. -/
  | clone (name : String) (columns : List Column)
  | insertAll (table source : String)
  | deleteAll (table : String)
  /-- Deletes the rows whose `keys` equal the columns `matching` of a row of the source. -/
  | deleteMatching (table : String) (keys : List String) (source qualifier : String)
      (matching : List String)
  /-- Inserts one row of `scratch` for each value of `keys`. -/
  | insertRanked (table : String) (columns keys : List String) (scratch : String)
  | drop (table : String)
  | dropRelation (kind name : String)
  | readAll (relation : String)
  | grant (privilege relation : String) (grantee : Grantee)
  | addForeignKey (table : String) (key : ForeignKey)
  /-- Ends the current rows of `history` whose `values` differ from those of the row of `snapshot`
  with the same `keys`. -/
  | expireChanged (history snapshot : String) (keys values : List String)
  /-- Ends the current rows of `history` whose `keys` are gone from `snapshot`. -/
  | expireVanished (history snapshot : String) (keys : List String)
  /-- Deletes the rows of `staged` that have a current row in `history`. -/
  | deleteCurrent (staged history : String) (keys : List String)
  /-- Inserts the rows of `staged` as current ones. -/
  | insertCurrent (history staged : String) (columns : List String)
  deriving DecidableEq, Repr

namespace Command

/-- Columns in a list. -/
def commas (columns : List String) : String := ", ".intercalate columns

/-- The columns of two relations are equal, one by one. -/
def equations (left : String) (lefts : List String) (right : String) (rights : List String) :
    String :=
  " AND ".intercalate
    (List.zipWith (fun l r => left ++ "." ++ l ++ " = " ++ right ++ "." ++ r) lefts rights)

/-- A column differs between two relations, where NULL equals NULL alone. -/
def difference (left right column : String) : String :=
  let l := left ++ "." ++ column
  let r := right ++ "." ++ column
  l ++ " <> " ++ r ++ " OR (" ++ l ++ " IS NULL AND " ++ r ++ " IS NOT NULL) OR (" ++ l ++
    " IS NOT NULL AND " ++ r ++ " IS NULL)"

/-- The row of a history table is current. -/
def isCurrent (history : String) : String :=
  history ++ "." ++ expirationColumn ++ " = '" ++ maxTimestamp ++ "'"

/-- A row ends just before now. -/
def expire (history : String) : String :=
  "UPDATE " ++ history ++ " SET " ++ expirationColumn ++
    " = SYSDATE - INTERVAL '0.000001 seconds'"

/-- What stands behind TO. -/
def granteeText : Grantee → String
  | .user name grantOption => name ++ if grantOption then " WITH GRANT OPTION" else ""
  | .group name => "GROUP " ++ name

/-- The table and the columns that a foreign key points to. -/
def referenceText (r : Sql.Reference) : String :=
  if r.columns.isEmpty then r.table else r.table ++ " (" ++ commas r.columns ++ ")"

/-- The text of a command. -/
def text : Command → String
  | .define sql => sql
  | .clone name columns =>
    "CREATE TEMPORARY TABLE " ++ name ++ " (" ++ commas (columns.map Column.text) ++ ");"
  | .insertAll table source => "INSERT INTO " ++ table ++ " (SELECT * FROM " ++ source ++ ");"
  | .deleteAll table => "DELETE FROM " ++ table ++ ";"
  | .deleteMatching table keys source qualifier matching =>
    "DELETE FROM " ++ table ++ " USING " ++ source ++ " WHERE " ++
      equations table keys qualifier matching ++ ";"
  | .insertRanked table columns keys scratch =>
    "INSERT INTO " ++ table ++ " (SELECT " ++ commas columns ++
      " FROM (SELECT *, ROW_NUMBER() OVER (PARTITION BY " ++ commas keys ++ " ORDER BY " ++
      commas keys ++ ") AS row_rank FROM " ++ scratch ++ ") AS ranked WHERE row_rank = 1);"
  | .drop table => "DROP TABLE " ++ table ++ ";"
  | .dropRelation kind name => "DROP " ++ kind ++ " IF EXISTS " ++ name ++ " CASCADE;"
  | .readAll relation => "SELECT * FROM " ++ relation ++ ";"
  | .grant privilege relation grantee =>
    "GRANT " ++ privilege ++ " ON " ++ relation ++ " TO " ++ granteeText grantee ++ ";"
  | .addForeignKey table key =>
    "ALTER TABLE " ++ table ++ " ADD FOREIGN KEY (" ++ commas key.columns ++ ") REFERENCES " ++
      referenceText key.reference ++ ";"
  | .expireChanged history snapshot keys values =>
    expire history ++ " FROM " ++ snapshot ++ " WHERE " ++
      equations history keys snapshot keys ++ " AND (" ++
      " OR ".intercalate (values.map (difference history snapshot)) ++ ") AND " ++
      isCurrent history ++ ";"
  | .expireVanished history snapshot keys =>
    expire history ++ " WHERE (" ++ commas keys ++ ") NOT IN (SELECT " ++ commas keys ++ " FROM " ++
      snapshot ++ ") AND " ++ isCurrent history ++ ";"
  | .deleteCurrent staged history keys =>
    "DELETE FROM " ++ staged ++ " USING " ++ history ++ " WHERE " ++
      equations staged keys history keys ++ " AND " ++ isCurrent history ++ ";"
  | .insertCurrent history staged columns =>
    "INSERT INTO " ++ history ++ " (" ++ effectiveColumn ++ ", " ++ expirationColumn ++ ", " ++
      commas columns ++ ") SELECT SYSDATE, '" ++ maxTimestamp ++ "', " ++ commas columns ++
      " FROM " ++ staged ++ ";"

/-- The script of some commands. -/
def script (commands : List Command) : Sql.Script :=
  ⟨commands.flatMap fun c => (Sql.Script.ofText c.text).statements⟩

@[simp]
theorem script_append (a b : List Command) : script (a ++ b) = script a ++ script b := by
  unfold script
  rw [List.flatMap_append]
  rfl

end Command

end EtlFlow.Warehouse
