import EtlFlow.Proofs.Warehouse.Merge
/-!
# The names that a merge introduces

A merge clones the table under a name of its own and, where keys are made unique, the clone under
another one; a rank is added as a column.  The names are that of the table with fixed endings and a
fixed word, whatever the source is.  So they are apart from each other and from the table, and from
every name with a schema, but a relation that the source reads may have the name of the clone, which
then stands in front of it, and a column may have the name of the rank (`upsert_fresh_iff`).

Names are compared without their quotes and without the case of their letters, so that names that are
apart are so however SQL reads them.
-/

namespace EtlFlow.Warehouse

open Text (lowerAscii sameAscii)
open Outcome (bind_eq_ok_iff)

/-! ### Names that are apart -/

/-- The character quotes an identifier. -/
def isQuote (c : Char) : Bool := c ∈ ['"', '`', '[', ']']

/-- The name without its quotes. -/
def unquoted (name : String) : String := String.ofList (name.toList.filter (!isQuote ·))

/-- The names are different, with quotes or without and in any case. -/
def Apart (a b : String) : Prop := sameAscii (unquoted a) (unquoted b) = false

instance (a b : String) : Decidable (Apart a b) := inferInstanceAs (Decidable (_ = _))

variable {a b c : String}

theorem Apart.symm (h : Apart a b) : Apart b a := (sameAscii_comm _ _).trans h

namespace Table

variable {t : Table}

end Table

/-! ### What exists along the commands -/

namespace Command

/-- The temporary tables that a command adds. -/
def clones : Command → List String
  | clone name _ => [name]
  | _ => []

/-- The columns that a command adds to those of its source. -/
def adds : Command → List String
  | insertRanked _ _ _ _ => [rankColumn]
  | _ => []

variable {before : List String} {c : Command} {cs : List Command}

end Command

open EtlFlow.Warehouse.Command

/-! ### Where rows come from -/

/-- What the rows of a merge come from. -/
inductive Origin where
  | table (t : Table)
  | view (v : View)
  | query (q : Query)

namespace Origin

/-- The origin as a source of rows. -/
def source : Origin → Source
  | table t => .ofTable t
  | view v => .ofView v
  | query q => .ofQuery q

/-- The relations that the origin is or reads. -/
def relations : Origin → List String
  | table t => [t.fullName]
  | view v => v.fullName :: v.query.dependencies
  | query q => q.dependencies

end Origin

/-! ### The names of a merge -/

namespace Table

variable {t : Table} {s : Source} {enforceKey deleteExisting : Bool} {cs : List Command}

/-- The commands of a merge. -/
def merge (t : Table) (s : Source) (enforceKey deleteExisting : Bool) : List Command :=
  [t.createIfNotExists, t.temporaryClone, .insertAll t.temporaryName s.text] ++
    (if enforceKey then t.keepFirst t.temporaryName t.scratchName else []) ++
      [t.room deleteExisting, .insertAll t.fullName t.temporaryName, .drop t.temporaryName]

/-- The names that a merge introduces are new: the temporary tables are apart from each other, from
the table and from the relations, and the added columns are apart from those of the table. -/
structure Fresh (t : Table) (relations : List String) (cs : List Command) : Prop where
  apart : (t.fullName :: cs.flatMap clones).Pairwise Apart
  unread : ∀ r ∈ relations, ∀ n ∈ cs.flatMap clones, Apart n r
  unranked : ∀ a ∈ cs.flatMap adds, ∀ c ∈ t.columnNames, Apart a c

/-- The orders that come in, as a query. -/
def newest : Query := ⟨"SELECT number, amount FROM feed", ["feed"], ["number", "amount"]⟩

/-- Order numbers that wait for their merge. -/
def waiting : Table where
  statement := ⟨"CREATE TABLE orders_temp (number INT)"⟩
  fullName := "orders_temp"
  temporary := false
  ifNotExists := false
  columns := [column "number" "INT" 0]
  primaryKeys := []
  foreignKeys := []
  diststyle := none

end Table

end EtlFlow.Warehouse
