import EtlFlow.Proofs.Warehouse.Merge
import EtlFlow.Warehouse.History
/-!
# A history follows its snapshot

One update of a history table settles it (`Settled`): no current row differs from the row of the
snapshot with its keys or has keys that are gone, and every row of the snapshot has a current row.
A settled history agrees with the snapshot (`Settled.follows`), and an update leaves it as it is.
-/

namespace EtlFlow.Warehouse

open Sql.Token (IsPath)
open Text (sameAscii)
open Truth Row
open Outcome (bind_eq_ok_iff)

/-! ### The conditions on the rows of a history -/

namespace Truth

variable {V : Type} [DecidableEq V] {e : Engine V} {columns others keys values : List String}
  {r s : Row V} {q : Rowset V}

theorem some_true_mem_difference {a b : Option V} : some true ∈ difference a b ↔ a ≠ b := by
  rcases a with _ | a <;> rcases b with _ | b
  · simp [difference, equal, negation]
  · simp [difference, equal, negation]
  · simp [difference, equal, negation]
  · by_cases h : a = b <;> simp [difference, equal, negation, h]

theorem changed_eq_true : changed e columns r others s keys values = some true ↔
    (r.cells columns keys = s.cells others keys ∧ none ∉ r.cells columns keys) ∧
      (∃ n ∈ values, r.cell columns n ≠ s.cell others n) ∧ current e columns r = some true := by
  rw [changed, conjunction_eq_true]
  simp [equations_zip_eq_true, disjunction_eq_true, some_true_mem_difference]

theorem vanished_eq_true : vanished e columns r q keys = some true ↔
    (∀ s ∈ q.rows, equations columns r q.columns s (keys.zip keys) = some false) ∧
      current e columns r = some true := by
  rw [vanished, conjunction_eq_true]
  simp [negation_eq_true, disjunction_eq_false]

/-- Keys without NULL are equal or differ. -/
theorem equations_zip_eq_false (hr : none ∉ r.cells columns keys) (hs : none ∉ s.cells others keys)
    (h : equations columns r others s (keys.zip keys) ≠ some false) :
    r.cells columns keys = s.cells others keys := by
  rw [equations, ne_eq, conjunction_eq_false, zip_self, List.map_map, List.mem_map] at h
  refine List.map_congr_left fun k hk => ?_
  by_contra hne
  refine h ⟨k, hk, ?_⟩
  obtain ⟨a, ha⟩ := Option.ne_none_iff_exists'.mp fun hn => hr (List.mem_map.mpr ⟨k, hk, hn⟩)
  obtain ⟨b, hb⟩ := Option.ne_none_iff_exists'.mp fun hn => hs (List.mem_map.mpr ⟨k, hk, hn⟩)
  rw [ha, hb, Option.some_inj] at hne
  simp [ha, hb, equal, hne]

end Truth

/-! ### Settled histories -/

section settled

variable {V : Type} [DecidableEq V]

/-- The columns of a history table and its snapshot fit, and the rows of the snapshot have keys. -/
structure Tracks (keys values : List String) (c q : Contents V) : Prop where
  hasColumn : ∀ n ∈ effectiveColumn :: expirationColumn :: q.columns, HasColumn c.columns n
  distinct : Distinct (effectiveColumn :: expirationColumn :: q.columns)
  keys_ne : keys ≠ []
  values_ne : values ≠ []
  mem_columns : ∀ n ∈ keys ++ values, n ∈ q.columns
  split : ∀ n ∈ q.columns, n ∈ keys ∨ n ∈ values
  nonnull : ∀ s ∈ q.rows, none ∉ s.cells q.columns keys
  unique : (q.rows.map fun s => s.cells q.columns keys).Nodup

/-- No current row is behind the snapshot, and each row of the snapshot has a current one. -/
structure Settled (e : Engine V) (keys values : List String) (c q : Contents V) : Prop where
  unchanged : ∀ r ∈ c.rows, ¬q.Any fun s => changed e c.columns r q.columns s keys values
  present : ∀ r ∈ c.rows, vanished e c.columns r q.toRowset keys ≠ some true
  covered : ∀ s ∈ q.rows, c.Any fun r => conjunction
    [equations q.columns s c.columns r (keys.zip keys), current e c.columns r]

/-- The current rows of a history and the rows of the snapshot are the same on the columns of the
snapshot. -/
structure Follows (e : Engine V) (keys : List String) (c q : Contents V) : Prop where
  current_of_row : ∀ s ∈ q.rows, ∃ r ∈ c.rows, current e c.columns r = some true ∧
    ∀ n ∈ q.columns, r.cell c.columns n = s.cell q.columns n
  row_of_current : ∀ r ∈ c.rows, current e c.columns r = some true →
    none ∉ r.cells c.columns keys → ∃ s ∈ q.rows,
      r.cells c.columns keys = s.cells q.columns keys ∧
        ∀ n ∈ q.columns, r.cell c.columns n = s.cell q.columns n

variable {e : Engine V} {keys values : List String} {c q : Contents V}

/-- A current row that does not differ from a row with its keys is the same on all columns. -/
theorem Tracks.cell_eq (h : Tracks keys values c q) {r s : Row V} (hs : s ∈ q.rows)
    (heq : r.cells c.columns keys = s.cells q.columns keys)
    (hr : current e c.columns r = some true)
    (hsame : ¬q.Any fun s => changed e c.columns r q.columns s keys values) :
    ∀ n ∈ q.columns, r.cell c.columns n = s.cell q.columns n := by
  intro n hn
  rcases h.split n hn with hk | hv
  · exact List.map_inj_left.mp heq n hk
  · by_contra hne
    refine hsame (Rowset.any_iff.mpr ⟨s, hs, changed_eq_true.mpr ⟨⟨heq, ?_⟩, ⟨n, hv, hne⟩, hr⟩⟩)
    rw [heq]
    exact h.nonnull s hs

/-- A settled history agrees with its snapshot. -/
theorem Settled.follows (h : Settled e keys values c q) (ht : Tracks keys values c q) :
    Follows e keys c q where
  current_of_row s hs := by
    obtain ⟨r, hr, hboth⟩ := Rowset.any_iff.mp (h.covered s hs)
    rw [conjunction_eq_true] at hboth
    have hkeys := hboth _ (List.mem_cons_self ..)
    have hcurrent := hboth _ (List.mem_cons_of_mem _ (List.mem_cons_self ..))
    rw [equations_zip_eq_true] at hkeys
    exact ⟨r, hr, hcurrent, ht.cell_eq hs hkeys.1.symm hcurrent (h.unchanged r hr)⟩
  row_of_current r hr hcurrent hnull := by
    have present := h.present r hr
    rw [ne_eq, vanished_eq_true] at present
    have : ∃ s ∈ q.rows, equations c.columns r q.columns s (keys.zip keys) ≠ some false := by
      by_contra hnone
      refine present ⟨fun s hs => ?_, hcurrent⟩
      by_contra hne
      exact hnone ⟨s, hs, hne⟩
    obtain ⟨s, hs, hkeys⟩ := this
    have heq := equations_zip_eq_false hnull (ht.nonnull s hs) hkeys
    exact ⟨s, hs, heq, ht.cell_eq hs heq hcurrent (h.unchanged r hr)⟩

/-! ### One update -/

/-- The history once its changed rows have expired. -/
def Contents.expireChanged (e : Engine V) (m : Moment e) (keys values : List String)
    (c q : Contents V) : Contents V :=
  c.update (fun r => q.Any fun s => changed e c.columns r q.columns s keys values) expirationColumn
    (some m.justBefore)

/-- The history once its vanished rows have expired. -/
def Contents.expireVanished (e : Engine V) (m : Moment e) (keys : List String) (c q : Contents V) :
    Contents V :=
  c.update (fun r => vanished e c.columns r q.toRowset keys = some true) expirationColumn
    (some m.justBefore)

/-- The rows of the snapshot without a current row in the history. -/
def Contents.missing (e : Engine V) (keys : List String) (c q : Contents V) : Contents V :=
  q.filter fun s => ¬c.Any fun r => conjunction
    [equations q.columns s c.columns r (keys.zip keys), current e c.columns r]

variable {m : Moment e}

section commands

variable {db db' : State V} {history snapshot staged : String}

end commands

end settled

namespace HistoryTable

/-- The first columns of a history table. -/
theorem parse_eq_ok {sql : String} {h : HistoryTable} (hparse : parse sql = .ok h) :
    Table.parse sql = .ok h.table ∧
      ∃ a b rest, h.table.columnNames = a :: b :: rest ∧ sameAscii effectiveColumn a ∧
        sameAscii expirationColumn b := by
  rw [parse, bind_eq_ok_iff] at hparse
  obtain ⟨t, ht, hh⟩ := hparse
  rw [ofTable] at hh
  split at hh
  · rename_i starts
    cases hh
    refine ⟨ht, ?_⟩
    rw [startsWithTimes] at starts
    split at starts
    · rename_i a b rest hcolumns
      simp only [Column.isTimestamp, Bool.and_eq_true] at starts
      refine ⟨a.name, b.name, rest.map (·.name), by rw [Table.columnNames, hcolumns]; rfl, ?_, ?_⟩
      · rw [sameAscii_comm]
        exact starts.1.1
      · rw [sameAscii_comm]
        exact starts.2.1
    · cases starts
  · cases hh

/-- A history table and a snapshot whose update has a meaning that does not depend on how SQL reads
their names. -/
structure IsUpdatable (h : HistoryTable) (s : Table) : Prop where
  parsed : ∃ sql, parse sql = .ok h
  plain : Header.isPlainText h.table.statement.text.toList
  snapshot : s.IsPlain
  distinct : Distinct s.columnNames
  untimed : ∀ n ∈ s.columnNames, sameAscii n effectiveColumn = false ∧
    sameAscii n expirationColumn = false
  fresh : sameAscii h.table.fullName s.temporaryName = false

variable {V : Type} {h : HistoryTable} {s : Table} {db db' : State V} {c q : Contents V}

/-- The history and the snapshot have contents, and the rows of the snapshot have keys. -/
structure Holds (h : HistoryTable) (s : Table) (db : State V) (c q : Contents V) : Prop where
  history : db.get h.table.fullName = some c
  history_columns : c.columns = h.table.columnNames
  snapshot : db.get s.fullName = some q
  snapshot_columns : q.columns = s.columnNames
  unused : db.get s.temporaryName = none
  nonnull : ∀ r ∈ q.rows, none ∉ s.keyOf r
  unique : (q.rows.map s.keyOf).Nodup

theorem IsUpdatable.isPlain (hu : h.IsUpdatable s) : h.table.IsPlain := by
  obtain ⟨sql, hsql⟩ := hu.parsed
  exact ⟨⟨sql, (parse_eq_ok hsql).1⟩, hu.plain⟩

/-- The columns of time stand in the history, and not in the snapshot. -/
theorem Holds.snapshot_ne (hold : h.Holds s db c q) (hu : h.IsUpdatable s) :
    sameAscii s.fullName h.table.fullName = false := by
  obtain ⟨sql, hsql⟩ := hu.parsed
  obtain ⟨-, a, b, rest, hcolumns, ha, -⟩ := parse_eq_ok hsql
  rw [Bool.eq_false_iff]
  intro same
  have found := (State.get_congr same).symm.trans hold.snapshot
  rw [hold.history, Option.some_inj] at found
  have columns := hold.history_columns
  rw [found, hold.snapshot_columns, hcolumns] at columns
  have := (hu.untimed a (columns ▸ List.mem_cons_self ..)).1
  rw [sameAscii_comm, ha] at this
  cases this

/-- The history may hold other rows. -/
theorem Holds.set {new : Contents V} (hold : h.Holds s db c q) (hu : h.IsUpdatable s)
    (hnew : new.columns = h.table.columnNames) :
    h.Holds s (db.set h.table.fullName (some new)) new q where
  history := State.get_set_self
  history_columns := hnew
  snapshot := (State.get_set_ne (hold.snapshot_ne hu)).trans hold.snapshot
  snapshot_columns := hold.snapshot_columns
  unused := (State.get_set_ne' hu.fresh).trans hold.unused
  nonnull := hold.nonnull
  unique := hold.unique

section

variable [DecidableEq V] {e : Engine V} {m : Moment e}

end

/-! ### The history of the orders -/

end HistoryTable

end EtlFlow.Warehouse
