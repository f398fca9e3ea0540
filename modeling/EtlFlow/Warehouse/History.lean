import EtlFlow.Warehouse.Merge
/-!
# History tables

A history table keeps every version of the rows of a snapshot.  Its first two columns tell when a
version became effective and when it expired; a version that is current expires at the latest time
there is.
-/

namespace EtlFlow.Warehouse

/-- The column is a timestamp of the given name. -/
def Column.isTimestamp (name : String) (c : Column) : Bool :=
  Text.sameAscii c.name name && (Text.afterFront? "TIMESTAMP" (Text.upperAscii c.type)).isSome

/-- A table that keeps versions. -/
structure HistoryTable where
  table : Table
  deriving DecidableEq, Repr

namespace HistoryTable

/-- The table starts with the two columns of a history table. -/
def startsWithTimes (t : Table) : Bool :=
  match t.columns with
  | a :: b :: _ => a.isTimestamp effectiveColumn && b.isTimestamp expirationColumn
  | _ => false

/-- A table as a history table. -/
def ofTable (t : Table) : Except Error HistoryTable :=
  if startsWithTimes t then .ok ⟨t⟩ else .error (.notHistory t.fullName)

/-- The history table that a text with one statement defines. -/
def parse (sql : String) : Except Error HistoryTable := do ofTable (← Table.parse sql)

/-- The commands that fold a snapshot into the history: versions that changed or vanished expire, and
new versions come in. -/
def update (h : HistoryTable) (snapshot : Table) : Except Error (List Command) :=
  let history := h.table.fullName
  let keys := snapshot.primaryKeys
  let values := snapshot.otherColumns.map (·.name)
  let staged := snapshot.temporaryName
  if keys.isEmpty then .error (.noSnapshotKey snapshot.fullName)
  else if values.isEmpty then .error (.nothingTracked snapshot.fullName)
  else
    match snapshot.columnNames.find? fun n => (h.table.column? n).isNone with
    | some n => .error (.notInHistory history n snapshot.fullName)
    | none => .ok [
        .clone staged snapshot.columns,
        .insertAll staged snapshot.fullName,
        .expireChanged history snapshot.fullName keys values,
        .expireVanished history snapshot.fullName keys,
        .deleteCurrent staged history keys,
        .insertCurrent history staged snapshot.columnNames,
        .drop staged]

end HistoryTable

end EtlFlow.Warehouse
