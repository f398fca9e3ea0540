import EtlFlow.Sql.Json
import EtlFlow.Sql.TableDef
import EtlFlow.Warehouse.Error
/-!
# Columns

A column of a table of the warehouse.  A column of the primary key is NOT NULL, whatever its
definition says, and stays so.
-/

namespace EtlFlow.Warehouse

open Sql (Nullability)

/-- A column of a table. -/
structure Column where
  name : String
  type : String
  encoding : Option String := none
  reference : Option Sql.Reference := none
  position : Nat
  isDistkey : Bool := false
  isSortkey : Bool := false
  isPrimary : Bool := false
  nullability : Nullability := .unspecified
  /-- A key column is NOT NULL. -/
  notNull_of_isPrimary : isPrimary = true → nullability = .notNull := by simp
  deriving DecidableEq, Repr

namespace Column

/-- The column as one of the primary key. -/
def primary (c : Column) : Column :=
  { c with isPrimary := true, nullability := .notNull, notNull_of_isPrimary := fun _ => rfl }

/-- The column as one that rows are distributed by. -/
def distkey (c : Column) : Column := { c with isDistkey := true }

/-- The column as one that rows are sorted by. -/
def sortkey (c : Column) : Column := { c with isSortkey := true }

/-- The column with another say about NULL; a key column stays NOT NULL. -/
def withNullability (c : Column) (n : Nullability) : Except Error Column :=
  if h : c.isPrimary = true → n = .notNull then
    .ok { c with nullability := n, notNull_of_isPrimary := h }
  else .error (.nullableKey c.name)

/-- The column that a definition declares. -/
def ofDef (d : Sql.ColumnDef) : Column :=
  let c : Column :=
    { name := d.name, type := d.type, encoding := d.encoding, reference := d.reference
      position := d.position, isDistkey := d.isDistkey, isSortkey := d.isSortkey
      nullability := d.nullability }
  if d.isPrimary then c.primary else c

/-- The name and the type, as a definition starts. -/
def text (c : Column) : String := c.name ++ " " ++ c.type

/-- The column as JSON. -/
def json (c : Column) : Json := .object [
  ("name", .string c.name), ("column_type", .string c.type),
  ("encoding", Sql.textJson c.encoding),
  ("fk_reference", (c.reference.map Sql.Reference.json).getD .null),
  ("position", .ofNat c.position), ("is_distkey", .bool c.isDistkey),
  ("is_sortkey", .bool c.isSortkey), ("is_primary", .bool c.isPrimary),
  ("nullability", .string c.nullability.text)]

@[simp]
theorem name_primary (c : Column) : c.primary.name = c.name := rfl

@[simp]
theorem name_distkey (c : Column) : c.distkey.name = c.name := rfl

@[simp]
theorem name_sortkey (c : Column) : c.sortkey.name = c.name := rfl

@[simp]
theorem name_ofDef (d : Sql.ColumnDef) : (ofDef d).name = d.name := by
  unfold ofDef
  split <;> rfl

end Column

end EtlFlow.Warehouse
