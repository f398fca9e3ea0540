import EtlFlow.Json
import EtlFlow.Sql.TableDef
import EtlFlow.Sql.ViewDef
/-!
# Definitions as JSON
-/

namespace EtlFlow.Sql

/-- A list of texts. -/
def textsJson (ss : List String) : Json := .array (ss.map .string)

/-- A text, or null for none. -/
def textJson (s : Option String) : Json := (s.map Json.string).getD .null

/-- The word for what a column says about NULL. -/
def Nullability.text : Nullability → String
  | .unspecified => "unspecified"
  | .null => "null"
  | .notNull => "not_null"

/-- What a foreign key points to. -/
def Reference.json (r : Reference) : Json :=
  .object [("table", .string r.table), ("columns", textsJson r.columns)]

/-- A constraint. -/
def TableConstraint.json : TableConstraint → Json
  | .primaryKey columns => .object [("kind", .string "primary_key"), ("columns", textsJson columns)]
  | .foreignKey columns r =>
    .object [("kind", .string "foreign_key"), ("columns", textsJson columns), ("reference", r.json)]

/-- A column as declared. -/
def ColumnDef.json (c : ColumnDef) : Json := .object [
  ("name", .string c.name), ("type", .string c.type), ("encoding", textJson c.encoding),
  ("fk_reference", (c.reference.map Reference.json).getD .null), ("default", textJson c.default),
  ("identity", textJson c.identity), ("is_distkey", .bool c.isDistkey),
  ("is_sortkey", .bool c.isSortkey), ("is_primary", .bool c.isPrimary),
  ("nullability", .string c.nullability.text), ("position", .ofNat c.position)]

/-- A table as declared. -/
def TableDef.json (t : TableDef) : Json := .object [
  ("full_name", .string t.fullName), ("temporary", .bool t.temporary),
  ("if_not_exists", .bool t.ifNotExists), ("columns", .array (t.columns.map ColumnDef.json)),
  ("constraints", .array (t.constraints.map TableConstraint.json)),
  ("distkey", textsJson t.distkey), ("sortkey", textsJson t.sortkey),
  ("diststyle", textJson (t.diststyle.map DistStyle.text))]

/-- A view as declared. -/
def ViewDef.json (v : ViewDef) : Json := .object [
  ("view_name", .string v.name), ("or_replace", .bool v.orReplace),
  ("select_statement", .string v.body)]

end EtlFlow.Sql
