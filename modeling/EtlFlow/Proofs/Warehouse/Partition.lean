import EtlFlow.Proofs.Warehouse.Keys
/-!
# Key columns and other columns

The columns of the primary key are looked up by name, the other columns are those without the flag.
The two lists share out the columns of a table (`Table.IsPartition`) exactly when no column that
declares itself a key stands behind another of its name (`parse_partition`): a constraint flags the
first column of a name, which is the one that the lookup finds, but a column flags itself.
-/

namespace EtlFlow.Sql

/-- No column that declares itself a key stands behind another of its name. -/
def TableDef.KeysLead (d : TableDef) : Prop :=
  d.columns.Pairwise fun a b => b.isPrimary = true → a.name ≠ b.name

/-- Columns with names of their own hide no key. -/
theorem TableDef.keysLead_of_nodup {d : TableDef} (h : d.columnNames.Nodup) : d.KeysLead := by
  rw [columnNames, List.nodup_iff_pairwise_ne, List.pairwise_map] at h
  refine h.imp ?_
  exact fun hne _ => hne

end EtlFlow.Sql

namespace EtlFlow.Warehouse.Table

/-- The key columns and the other columns are the columns, each once, and the key columns are flagged
and NOT NULL. -/
structure IsPartition (t : Table) : Prop where
  nodup : t.columns.Nodup
  perm : (t.primaryKeyColumns ++ t.otherColumns).Perm t.columns
  flagged : ∀ c ∈ t.primaryKeyColumns, c.isPrimary = true ∧ c.nullability = .notNull

/-- No flagged column stands behind another of its name. -/
def KeysLead (columns : List Column) : Prop :=
  columns.Pairwise fun a b => b.isPrimary = true → a.name ≠ b.name

section

variable {t : Table} {c : Column} {n : String}

/-! ### The two lists -/

theorem name_of_column? (h : t.column? n = some c) : c.name = n := by
  simpa [column?] using List.find?_some h

theorem mem_primaryKeyColumns : c ∈ t.primaryKeyColumns ↔
    c.name ∈ t.primaryKeys ∧ t.column? c.name = some c := by
  rw [primaryKeyColumns, List.mem_filterMap]
  constructor
  · rintro ⟨n, hn, hc⟩
    rw [name_of_column? hc]
    exact ⟨hn, hc⟩
  · rintro ⟨hn, hc⟩
    exact ⟨c.name, hn, hc⟩

theorem mem_otherColumns : c ∈ t.otherColumns ↔ c ∈ t.columns ∧ c.isPrimary = false := by
  rw [otherColumns, List.mem_filter, Bool.not_eq_true']

/-- Every key is looked up. -/
theorem map_name_primaryKeyColumns (h : t.KeysAgree) :
    t.primaryKeyColumns.map (·.name) = t.primaryKeys := by
  have found : ∀ n ∈ t.primaryKeys, (t.column? n).map (·.name) = some n := by
    intro n hn
    obtain ⟨c, hc, rfl, -⟩ := (h.mem_iff n).mp hn
    cases hfind : t.column? c.name with
    | none =>
      have := List.find?_eq_none.mp hfind c hc
      simp at this
    | some b => rw [Option.map_some, name_of_column? hfind]
  rw [primaryKeyColumns, List.map_filterMap, List.filterMap_congr found, List.filterMap_some]

/-- A flagged column is the one that the lookup finds when it is the first of its name. -/
theorem column?_of_keysLead (h : KeysLead t.columns) (hc : c ∈ t.columns)
    (hp : c.isPrimary = true) : t.column? c.name = some c := by
  obtain ⟨front, behind, hcs⟩ := List.append_of_mem hc
  rw [KeysLead, hcs, List.pairwise_append] at h
  rw [column?, List.find?_eq_some_iff_append]
  refine ⟨beq_self_eq_true _, front, behind, hcs, fun a ha => ?_⟩
  simpa using h.2.2 a ha c (List.mem_cons_self ..) hp

/-- Where the lists share out the columns, a flagged column behind another of its name would be in
neither. -/
theorem IsPartition.keysLead (h : t.IsPartition) : KeysLead t.columns := by
  rw [KeysLead, List.pairwise_iff_getElem]
  intro i j hi hj hij hp hname
  have key : t.columns[j] ∈ t.primaryKeyColumns := by
    have share := h.perm.mem_iff.mpr (List.getElem_mem hj)
    rw [List.mem_append, mem_otherColumns, hp] at share
    exact share.resolve_right (by simp)
  have first := (mem_primaryKeyColumns.mp key).2
  rw [column?, List.find?_eq_some_iff_getElem] at first
  obtain ⟨-, k, hk, same, before⟩ := first
  rw [h.nodup.getElem_inj_iff] at same
  exact absurd hname (by simpa using before i (same ▸ hij))

theorem isPartition_iff (hkeys : t.KeysAgree) (hnodup : t.columns.Nodup) :
    t.IsPartition ↔ KeysLead t.columns := by
  refine ⟨IsPartition.keysLead, fun h => ?_⟩
  have mem_iff (c : Column) : c ∈ t.primaryKeyColumns ↔ c ∈ t.columns.filter (·.isPrimary) := by
    rw [mem_primaryKeyColumns, hkeys.mem_iff, List.mem_filter]
    constructor
    · rintro ⟨⟨b, hb, hname, hp⟩, hc⟩
      have first := column?_of_keysLead h hb hp
      rw [hname, hc] at first
      cases first
      exact ⟨hb, hp⟩
    · rintro ⟨hc, hp⟩
      exact ⟨⟨c, hc, rfl, hp⟩, column?_of_keysLead h hc hp⟩
  have once : t.primaryKeyColumns.Nodup := by
    refine List.Nodup.of_map (·.name) ?_
    rw [map_name_primaryKeyColumns hkeys]
    exact hkeys.nodup
  have keys := (List.perm_ext_iff_of_nodup once (hnodup.filter _)).mpr mem_iff
  refine ⟨hnodup, ?_, fun c hc => ?_⟩
  · exact (keys.append_right _).trans (List.filter_append_perm _ _)
  · have hp := (List.mem_filter.mp ((mem_iff c).mp hc)).2
    exact ⟨hp, c.notNull_of_isPrimary hp⟩

end

/-! ### Flags of a definition -/

theorem keysLead_cons {columns : List Column} {c : Column} :
    KeysLead (c :: columns) ↔ ¬Flagged (·.isPrimary) columns c.name ∧ KeysLead columns := by
  rw [KeysLead, List.pairwise_cons]
  refine and_congr_left fun _ => ?_
  simp only [Flagged, not_exists, not_and]
  exact forall₂_congr fun b _ =>
    ⟨fun h hname hp => h hp hname.symm, fun h hp hname => h hname.symm hp⟩

/-- A key of a constraint flags the first column of its name. -/
theorem keysLead_mark {columns : List Column} {n : String} (hn : n ∈ columns.map (·.name)) :
    KeysLead (mark Column.primary columns n) ↔ KeysLead columns := by
  induction columns with
  | nil => rfl
  | cons c cs ih =>
    rw [mark]
    split
    · rw [keysLead_cons, keysLead_cons, Column.name_primary]
    · rename_i hc
      have hn : n ∈ cs.map (·.name) := by simpa [Ne.symm hc] using hn
      rw [keysLead_cons, keysLead_cons, ih hn,
        flagged_mark Column.name_primary (fun _ => rfl) hn, or_iff_left hc]

theorem keysLead_foldl_mark {names : List String} {columns : List Column}
    (h : ∀ n ∈ names, n ∈ columns.map (·.name)) :
    KeysLead (names.foldl (mark Column.primary) columns) ↔ KeysLead columns := by
  induction names generalizing columns with
  | nil => rfl
  | cons n names ih =>
    rw [List.forall_mem_cons] at h
    rw [List.foldl_cons, ih (by rw [map_mark Column.name_primary]; exact h.2), keysLead_mark h.1]

/-- The other keys leave names and flags as they are. -/
theorem keysLead_sorted {s : Sql.Statement} {d : Sql.TableDef}
    (h : ∀ n ∈ d.listed, n ∈ d.columnNames) : KeysLead (sorted s d).columns ↔ d.KeysLead := by
  have flags (cs : List Column) : KeysLead cs ↔
      (cs.map fun c => (c.name, c.isPrimary)).Pairwise fun a b => b.2 = true → a.1 ≠ b.1 := by
    rw [KeysLead, List.pairwise_map]
  have same : (sorted s d).columns.map (fun c => (c.name, c.isPrimary)) =
      (keyed s d).columns.map fun c => (c.name, c.isPrimary) := by
    have sort (c : Column) : (c.sortkey.name, c.sortkey.isPrimary) = (c.name, c.isPrimary) := rfl
    have dist (c : Column) : (c.distkey.name, c.distkey.isPrimary) = (c.name, c.isPrimary) := rfl
    exact (map_foldl_mark sort).trans (map_foldl_mark dist)
  rw [flags, same, ← flags, keyed, keysLead_foldl_mark (keyNames_subset h), KeysLead,
    List.pairwise_map, Sql.TableDef.KeysLead]
  simp only [Column.name_ofDef, isPrimary_ofDef]

/-- The columns of a table differ in their positions. -/
theorem HasKeysOf.nodup_columns {t : Table} {d : Sql.TableDef} (h : t.HasKeysOf d) :
    t.columns.Nodup := by
  refine List.Nodup.of_map (fun c => (c.name, c.position)) ?_
  rw [h.columns]
  exact List.Nodup.of_map Prod.snd (by rw [List.zipIdx_map_snd]; exact List.nodup_range')

/-! ### The whole table -/

/-- The key columns of an accepted table have the names in the primary key.  They and the other
columns share out the columns exactly when every column that declares itself a key is the first of its
name, so always when the columns have names of their own. -/
theorem parse_partition {sql : String} {t : Table} (h : parse sql = .ok t) :
    t.primaryKeyColumns.map (·.name) = t.primaryKeys ∧ t.primaryKeys.Nodup ∧
      (t.columnNames.Nodup → t.IsPartition) ∧
      ∃ s d, Sql.Statement.parse sql = .ok s ∧ Sql.TableDef.parse s.text = .ok d ∧
        (t.IsPartition ↔ d.KeysLead) := by
  obtain ⟨s, d, _, hs, hd, -, -, keys⟩ := (parse_keys sql).1 t h
  obtain ⟨_, hs', ht⟩ := parse_eq_ok_iff.mp h
  cases hs.symm.trans hs'
  obtain ⟨_, hd', -, -, names, agree⟩ := ofStatement_eq_ok ht
  cases hd.symm.trans hd'
  have table : ofStatement s = ofDef s d := by rw [ofStatement, hd]; rfl
  rw [table, ofDef_eq, checked_eq_ok_iff] at ht
  have share : t.IsPartition ↔ d.KeysLead := by
    rw [isPartition_iff agree keys.nodup_columns, ← ht.2, keysLead_sorted ht.1]
  refine ⟨map_name_primaryKeyColumns agree, agree.nodup, fun hn => ?_, s, d, hs, hd, share⟩
  rw [names] at hn
  exact share.mpr (Sql.TableDef.keysLead_of_nodup hn)

/-- A table with a key among its columns and one in a list. -/
def sharedKeys : String := "CREATE TABLE orders (id INT PRIMARY KEY, day DATE, PRIMARY KEY (day))"

theorem parse_partition_orders : ∃ t, parse sharedKeys = .ok t ∧ t.columnNames.Nodup ∧
    t.primaryKeyColumns.map (·.name) = ["id", "day"] ∧ t.IsPartition := by
  obtain ⟨t, ht, parts⟩ := Outcome.exists_ok_of_map_toOption
    (f := fun t : Table => (t.columnNames, t.primaryKeys)) (x := parse sharedKeys)
    (b := (["id", "day"], ["id", "day"])) (by decide +kernel)
  rw [Prod.mk.injEq] at parts
  obtain ⟨keys, -, share, -⟩ := parse_partition ht
  have distinct : t.columnNames.Nodup := by rw [parts.1]; decide
  exact ⟨t, ht, distinct, keys.trans parts.2, share distinct⟩

/-- Of two columns of one name that are both keys, the second is in neither list; where only the
second is a key, the first is taken for it, which is not flagged and may be NULL. -/
theorem twin_columns_ne_partition :
    (∃ t, parse "CREATE TABLE orders (id INT PRIMARY KEY, id INT PRIMARY KEY)" = .ok t ∧
      t.columns.length = 2 ∧ t.primaryKeyColumns.length = 1 ∧ t.otherColumns = [] ∧
      ¬t.IsPartition) ∧
    ∃ t, parse "CREATE TABLE orders (id INT, id INT PRIMARY KEY)" = .ok t ∧
      t.primaryKeyColumns.map (fun c => (c.isPrimary, c.nullability)) = [(false, .unspecified)] ∧
      ¬t.IsPartition := by
  constructor
  · obtain ⟨t, ht, parts⟩ := Outcome.exists_ok_of_map_toOption
      (f := fun t : Table => (t.columns.length, t.primaryKeyColumns.length, t.otherColumns))
      (x := parse "CREATE TABLE orders (id INT PRIMARY KEY, id INT PRIMARY KEY)")
      (b := (2, 1, [])) (by decide +kernel)
    simp only [Prod.mk.injEq] at parts
    refine ⟨t, ht, parts.1, parts.2.1, parts.2.2, fun share => ?_⟩
    have lengths := share.perm.length_eq
    rw [List.length_append, parts.1, parts.2.1, parts.2.2] at lengths
    exact absurd lengths (by decide)
  · obtain ⟨t, ht, flags⟩ := Outcome.exists_ok_of_map_toOption
      (f := fun t : Table => t.primaryKeyColumns.map fun c => (c.isPrimary, c.nullability))
      (x := parse "CREATE TABLE orders (id INT, id INT PRIMARY KEY)")
      (b := [(false, .unspecified)]) (by decide +kernel)
    refine ⟨t, ht, flags, fun share => ?_⟩
    cases hkeys : t.primaryKeyColumns with
    | nil =>
      rw [hkeys] at flags
      cases flags
    | cons c cs =>
      rw [hkeys, List.map_cons, List.cons.injEq, Prod.mk.injEq] at flags
      have hp := (share.flagged c (by simp [hkeys])).1
      rw [flags.1.1] at hp
      cases hp

end EtlFlow.Warehouse.Table
