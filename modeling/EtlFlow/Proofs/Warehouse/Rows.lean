import EtlFlow.Text.Fold
import Mathlib.Data.List.Nodup
import Mathlib.Data.Multiset.Filter
import Mathlib.Data.Multiset.MapFold
/-!
# Rows and truth

What statements compute with.  A row is a list of values, NULL among them, under columns that are
told apart up to the case of ASCII letters.  A condition on rows is true, false or unknown: a
comparison with NULL is unknown, and only a true condition selects a row.
-/

namespace EtlFlow.Warehouse

open Text (lowerAscii sameAscii)

/-! ### Truth -/

/-- True, false, or nothing for unknown. -/
abbrev Truth := Option Bool

namespace Truth

variable {V : Type} [DecidableEq V]

/-- Two values are equal. -/
def equal : Option V → Option V → Truth
  | some a, some b => some (decide (a = b))
  | _, _ => none

/-- Negation. -/
def negation (t : Truth) : Truth := t.map not

/-- Conditions with AND between them. -/
def conjunction (ts : List Truth) : Truth :=
  if some false ∈ ts then some false else if none ∈ ts then none else some true

/-- Conditions with OR between them. -/
def disjunction (ts : Multiset Truth) : Truth :=
  if some true ∈ ts then some true else if none ∈ ts then none else some false

theorem equal_eq_true {a b : Option V} : equal a b = some true ↔ a = b ∧ a ≠ none := by
  cases a <;> cases b <;> simp [equal]

theorem conjunction_eq_true {ts : List Truth} :
    conjunction ts = some true ↔ ∀ t ∈ ts, t = some true := by
  unfold conjunction
  constructor
  · intro h t ht
    split at h
    · cases h
    split at h
    · cases h
    · rcases t with _ | _ | _
      · contradiction
      · contradiction
      · rfl
  · intro h
    rw [if_neg (fun hf => by cases h _ hf), if_neg (fun hn => by cases h _ hn)]

theorem conjunction_eq_false {ts : List Truth} :
    conjunction ts = some false ↔ some false ∈ ts := by
  unfold conjunction
  split
  · simp_all
  · split <;> simp_all

theorem disjunction_eq_true {ts : Multiset Truth} :
    disjunction ts = some true ↔ some true ∈ ts := by
  unfold disjunction
  split
  · simp_all
  · split <;> simp_all

theorem disjunction_eq_false {ts : Multiset Truth} :
    disjunction ts = some false ↔ ∀ t ∈ ts, t = some false := by
  unfold disjunction
  constructor
  · intro h t ht
    split at h
    · cases h
    split at h
    · cases h
    · rcases t with _ | _ | _
      · contradiction
      · rfl
      · contradiction
  · intro h
    rw [if_neg (fun hf => by cases h _ hf), if_neg (fun hn => by cases h _ hn)]

theorem negation_eq_true {t : Truth} : t.negation = some true ↔ t = some false := by
  rcases t with _ | _ | _ <;> simp [negation]

end Truth

/-! ### Columns -/

/-- The columns have different names. -/
def Distinct (columns : List String) : Prop := (columns.map lowerAscii).Nodup

instance (columns : List String) : Decidable (Distinct columns) :=
  inferInstanceAs (Decidable (List.Nodup _))

/-- Exactly one column has the name. -/
def HasColumn (columns : List String) (name : String) : Prop :=
  columns.countP (sameAscii name) = 1

/-- Where the first column of a name stands. -/
def columnIndex (columns : List String) (name : String) : Nat := columns.findIdx (sameAscii name)

theorem sameAscii_iff {a b : String} : sameAscii a b ↔ lowerAscii a = lowerAscii b := by
  simp [sameAscii]

theorem sameAscii_eq_false {a b : String} :
    sameAscii a b = false ↔ lowerAscii a ≠ lowerAscii b := by
  simp [sameAscii]

theorem sameAscii_refl (a : String) : sameAscii a a := sameAscii_iff.mpr rfl

theorem sameAscii_comm (a b : String) : sameAscii a b = sameAscii b a := by
  rw [sameAscii, sameAscii, Bool.beq_comm]

/-- Names of different lengths are different in any case. -/
theorem sameAscii_of_length {a b : String} (h : a.toList.length ≠ b.toList.length) :
    sameAscii a b = false := by
  rw [sameAscii_eq_false]
  intro heq
  have := congrArg (List.length ∘ String.toList) heq
  simp only [Function.comp_apply, lowerAscii, String.toList_map, List.length_map] at this
  exact h this

/-- A longer name is another name in any case. -/
theorem not_sameAscii_append {name ending : String} (h : ending ≠ "") :
    sameAscii (name ++ ending) name = false := by
  refine sameAscii_of_length ?_
  rw [String.toList_append, List.length_append, ne_eq, Nat.add_eq_left, List.length_eq_zero_iff]
  exact fun hnil => h (String.toList_inj.mp hnil)

section columns

variable {columns : List String} {name : String}

theorem hasColumn_of_mem (hd : Distinct columns) {c : String} (hc : c ∈ columns)
    (h : sameAscii name c) : HasColumn columns name := by
  have folded : columns.countP (sameAscii name) =
      (columns.map lowerAscii).count (lowerAscii name) := by
    rw [List.count, List.countP_map]
    congr 1
    funext d
    simp [sameAscii, Bool.beq_comm]
  rw [HasColumn, folded]
  rw [sameAscii_iff] at h
  exact List.count_eq_one_of_mem hd (h ▸ List.mem_map_of_mem hc)

end columns

/-! ### Rows -/

/-- A row; NULL is no value. -/
abbrev Row (V : Type) := List (Option V)

namespace Row

variable {V : Type}

/-- The value in the column of a name. -/
def cell (columns : List String) (row : Row V) (name : String) : Option V :=
  row[columnIndex columns name]?.getD none

/-- The values in the columns of some names. -/
def cells (columns : List String) (row : Row V) (names : List String) : Row V :=
  names.map (cell columns row)

/-- The row with another value in the column of a name. -/
def setCell (columns : List String) (name : String) (value : Option V) (row : Row V) : Row V :=
  row.set (columnIndex columns name) value

/-- The row whose columns of some names have values, and whose other columns have their defaults. -/
def assigned (values : List (String × Option V)) (default : String → Option V)
    (columns : List String) : Row V :=
  columns.map fun c => ((values.find? fun a => sameAscii a.1 c).map (·.2)).getD (default c)

/-- The row with defaults in the columns behind its end. -/
def padded (default : String → Option V) (columns : List String) (row : Row V) : Row V :=
  row ++ (columns.drop row.length).map default

variable {columns : List String} {row : Row V} {name : String}

@[simp]
theorem length_setCell (value : Option V) :
    (setCell columns name value row).length = row.length := by
  simp [setCell]

end Row

/-! ### Tables -/

/-- Rows under columns. -/
@[ext]
structure Rowset (V : Type) where
  columns : List String
  rows : Multiset (Row V)
  width : ∀ r ∈ rows, r.length = columns.length

/-- The condition is true of some row. -/
def Rowset.Any {V : Type} (q : Rowset V) (condition : Row V → Truth) : Prop :=
  some true ∈ q.rows.map condition

instance {V : Type} (q : Rowset V) (condition : Row V → Truth) : Decidable (q.Any condition) :=
  inferInstanceAs (Decidable (_ ∈ _))

theorem Rowset.any_iff {V : Type} {q : Rowset V} {condition : Row V → Truth} :
    q.Any condition ↔ ∃ s ∈ q.rows, condition s = some true :=
  Multiset.mem_map

/-- What a table holds. -/
@[ext]
structure Contents (V : Type) extends Rowset V where
  distinct : Distinct columns

namespace Contents

variable {V : Type}

/-- No rows. -/
def empty (columns : List String) (h : Distinct columns) : Contents V where
  columns := columns
  rows := 0
  width := by simp
  distinct := h

/-- Other rows under the same columns. -/
def withRows (c : Contents V) (rows : Multiset (Row V))
    (h : ∀ r ∈ rows, r.length = c.columns.length) : Contents V :=
  { c with rows, width := h }

theorem withRows_eq {c d : Contents V} {rows : Multiset (Row V)}
    (h : ∀ r ∈ rows, r.length = c.columns.length) (hcolumns : d.columns = c.columns)
    (hrows : d.rows = rows) : c.withRows rows h = d :=
  Contents.ext hcolumns.symm hrows.symm

/-- The rows that satisfy a condition. -/
def filter (p : Row V → Prop) [DecidablePred p] (c : Contents V) : Contents V :=
  c.withRows (c.rows.filter p) fun r hr => c.width r (Multiset.mem_of_mem_filter hr)

/-- The rows with another value in a column of those that satisfy a condition. -/
def update (p : Row V → Prop) [DecidablePred p] (name : String) (value : Option V)
    (c : Contents V) : Contents V :=
  c.withRows (c.rows.map fun r => if p r then r.setCell c.columns name value else r) fun r hr => by
    obtain ⟨s, hs, rfl⟩ := Multiset.mem_map.mp hr
    split
    · rw [Row.length_setCell, c.width s hs]
    · exact c.width s hs

@[simp]
theorem columns_filter (p : Row V → Prop) [DecidablePred p] (c : Contents V) :
    (c.filter p).columns = c.columns := rfl

@[simp]
theorem rows_filter (p : Row V → Prop) [DecidablePred p] (c : Contents V) :
    (c.filter p).rows = c.rows.filter p := rfl

@[simp]
theorem columns_update (p : Row V → Prop) [DecidablePred p] (name : String) (value : Option V)
    (c : Contents V) : (c.update p name value).columns = c.columns := rfl

/-- Nothing changes where no row satisfies the condition. -/
theorem update_eq_self {p : Row V → Prop} [DecidablePred p] {c : Contents V}
    (h : ∀ r ∈ c.rows, ¬p r) (name : String) (value : Option V) : c.update p name value = c := by
  refine withRows_eq _ rfl ?_
  rw [Multiset.map_congr rfl fun r hr => if_neg (h r hr), Multiset.map_id']

end Contents

end EtlFlow.Warehouse
