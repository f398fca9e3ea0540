import EtlFlow.Proofs.Sql.Items
import EtlFlow.Proofs.Warehouse.Table
/-!
# Keys of a table and lists of its definition

What `Table.parse` makes of the keys in a CREATE TABLE statement.  Reading a definition comes down
to one check, that every name in a list is declared, and to a table without failure (`ofDef_eq`):
the lists of keys are filled in a fixed order, and each name flags a column.  `parse_keys` is the
agreement of keys, flags, positions and foreign keys with the definition, and says which texts are
refused.
-/

namespace EtlFlow.Sql

/-- The columns that a constraint names. -/
def TableConstraint.names : TableConstraint → List String
  | .primaryKey columns => columns
  | .foreignKey columns _ => columns

/-- The columns that a constraint puts into the primary key. -/
def TableConstraint.keyNames : TableConstraint → List String
  | .primaryKey columns => columns
  | .foreignKey _ _ => []

/-- The foreign key that a constraint is. -/
def TableConstraint.foreignKey? : TableConstraint → Option Warehouse.ForeignKey
  | .primaryKey _ => none
  | .foreignKey columns reference => some ⟨columns, reference⟩

/-- The foreign key that a column declares. -/
def ColumnDef.foreignKey? (c : ColumnDef) : Option Warehouse.ForeignKey :=
  c.reference.map fun r => ⟨[c.name], r⟩

namespace TableDef

variable (d : TableDef)

/-- The names of the columns. -/
def columnNames : List String := d.columns.map (·.name)

/-- The names of the columns that pass a test. -/
def namesWhere (p : ColumnDef → Bool) : List String := (d.columns.filter p).map (·.name)

/-- The names in the lists of keys of the table. -/
def listed : List String := d.constraints.flatMap (·.names) ++ (d.distkey ++ d.sortkey)

theorem namesWhere_subset (p : ColumnDef → Bool) : d.namesWhere p ⊆ d.columnNames := by
  intro n hn
  obtain ⟨c, hc, rfl⟩ := List.mem_map.mp hn
  exact List.mem_map_of_mem (List.mem_filter.mp hc).1

end TableDef

end EtlFlow.Sql

namespace EtlFlow.Warehouse.Table

open Outcome (bind_eq_ok_iff map_eq_ok_iff)

/-! ### Lists of keys -/

theorem pushNew_eraseDups (names : List String) (n : String) :
    pushNew names.eraseDups n = (names ++ [n]).eraseDups := by
  rw [pushNew, List.eraseDups_append]
  by_cases h : n ∈ names <;> simp [List.removeAll, h, List.eraseDups_cons]

/-- Names that are put into a list one by one: the new ones come last, in their order. -/
theorem foldl_pushNew (names more : List String) :
    more.foldl pushNew names.eraseDups = (names ++ more).eraseDups := by
  induction more generalizing names with
  | nil => rw [List.foldl_nil, List.append_nil]
  | cons n more ih => rw [List.foldl_cons, pushNew_eraseDups, ih, List.append_assoc]; rfl

/-! ### Flags of columns -/

/-- The columns with the first one of a name changed, where there is one. -/
def mark (change : Column → Column) (columns : List Column) (name : String) : List Column :=
  match columns with
  | [] => []
  | c :: cs => if c.name = name then change c :: cs else c :: mark change cs name

/-- A column of the name carries the flag. -/
def Flagged (flag : Column → Bool) (columns : List Column) (n : String) : Prop :=
  ∃ c ∈ columns, c.name = n ∧ flag c = true

section mark

variable {change : Column → Column} {flag : Column → Bool} {columns : List Column} {n m : String}
  {names : List String}

theorem changeColumn_eq (table name : String) (change : Column → Column) (columns : List Column) :
    changeColumn table name change columns =
      if name ∈ columns.map (·.name) then .ok (mark change columns name)
      else .error (.noColumn table name) := by
  induction columns with
  | nil => rfl
  | cons c cs ih =>
    rw [changeColumn, mark, ih]
    by_cases h : c.name = name
    · simp [h]
    · rw [if_neg h, if_neg h, List.map_cons]
      have : (name ∈ c.name :: cs.map (·.name)) ↔ name ∈ cs.map (·.name) := by
        simp [Ne.symm h]
      simp only [this]
      split <;> rfl

/-- What a change of one column keeps of every column. -/
theorem map_mark {β : Type} {f : Column → β} (h : ∀ c, f (change c) = f c) :
    (mark change columns n).map f = columns.map f := by
  induction columns with
  | nil => rfl
  | cons c cs ih =>
    rw [mark]
    split
    · rw [List.map_cons, List.map_cons, h]
    · rw [List.map_cons, List.map_cons, ih]

theorem map_foldl_mark {β : Type} {f : Column → β} (h : ∀ c, f (change c) = f c) :
    (names.foldl (mark change) columns).map f = columns.map f := by
  induction names generalizing columns with
  | nil => rfl
  | cons n names ih => rw [List.foldl_cons, ih, map_mark h]

theorem flagged_congr {ds : List Column}
    (h : ds.map (fun c => (c.name, flag c)) = columns.map fun c => (c.name, flag c)) :
    Flagged flag ds n ↔ Flagged flag columns n := by
  have spelled (cs : List Column) :
      Flagged flag cs n ↔ (n, true) ∈ cs.map fun c => (c.name, flag c) := by
    simp [Flagged]
  rw [spelled, spelled, h]

theorem flagged_mark (hname : ∀ c, (change c).name = c.name) (hflag : ∀ c, flag (change c) = true)
    (hn : n ∈ columns.map (·.name)) :
    Flagged flag (mark change columns n) m ↔ Flagged flag columns m ∨ m = n := by
  induction columns with
  | nil => cases hn
  | cons c cs ih =>
    have split (c : Column) (cs : List Column) :
        Flagged flag (c :: cs) m ↔ c.name = m ∧ flag c = true ∨ Flagged flag cs m := by
      simp [Flagged]
    rw [mark]
    by_cases hc : c.name = n
    · rw [if_pos hc, split, split, hname, hflag]
      grind
    · rw [if_neg hc, split, split, ih (by simpa [Ne.symm hc] using hn), or_assoc]

/-- Names that flag columns one by one. -/
theorem flagged_foldl_mark (hname : ∀ c, (change c).name = c.name)
    (hflag : ∀ c, flag (change c) = true) (h : ∀ n ∈ names, n ∈ columns.map (·.name)) :
    Flagged flag (names.foldl (mark change) columns) m ↔ Flagged flag columns m ∨ m ∈ names := by
  induction names generalizing columns with
  | nil => simp
  | cons n names ih =>
    rw [List.forall_mem_cons] at h
    rw [List.foldl_cons, ih (by rw [map_mark hname]; exact h.2), flagged_mark hname hflag h.1,
      List.mem_cons, or_assoc]

end mark

/-! ### One step without failure -/

/-- The table with a column in its primary key, where it has the column. -/
def addPrimaryKey (t : Table) (name : String) : Table :=
  { t with
    columns := mark Column.primary t.columns name
    primaryKeys := pushNew t.primaryKeys name }

/-- The table with a column that rows are distributed by, where it has the column. -/
def addDistKey (t : Table) (name : String) : Table :=
  { t with
    columns := mark Column.distkey t.columns name
    distKeys := pushNew t.distKeys name }

/-- The table with a column that rows are sorted by, where it has the column. -/
def addSortKey (t : Table) (name : String) : Table :=
  { t with
    columns := mark Column.sortkey t.columns name
    sortKeys := pushNew t.sortKeys name }

/-- The table with a constraint, where it has the columns. -/
def addConstraint (t : Table) : Sql.TableConstraint → Table
  | .primaryKey columns => columns.foldl addPrimaryKey t
  | .foreignKey columns reference =>
    { t with foreignKeys := t.foreignKeys ++ [⟨columns, reference⟩] }

section reading

variable {d : Sql.TableDef} {t : Table}

/-- The table has the name and the columns of the definition. -/
def Of (d : Sql.TableDef) (t : Table) : Prop :=
  t.fullName = d.fullName ∧ t.columnNames = d.columnNames

/-- The table, where every name is declared; otherwise the first name is reported that is not. -/
def checked (d : Sql.TableDef) (names : List String) (t : Table) : Except Error Table :=
  match names.find? (· ∉ d.columnNames) with
  | some n => .error (.noColumn d.fullName n)
  | none => .ok t

/-- A check behind a check checks the names of both. -/
theorem checked_bind {u : Table} {f : Table → Except Error Table} {more : List String}
    (h : f t = checked d more u) (names : List String) :
    checked d names t >>= f = checked d (names ++ more) u := by
  rw [checked, checked, List.find?_append]
  cases names.find? (· ∉ d.columnNames) with
  | some n => rfl
  | none => exact h

theorem checked_eq_ok_iff {u : Table} {names : List String} :
    checked d names t = .ok u ↔ (∀ n ∈ names, n ∈ d.columnNames) ∧ t = u := by
  rw [checked]
  cases h : names.find? (· ∉ d.columnNames) with
  | some n =>
    have found : n ∈ names ∧ n ∉ d.columnNames :=
      ⟨List.mem_of_find?_eq_some h, by simpa using List.find?_some h⟩
    exact ⟨fun h => (by cases h), fun h => absurd (h.1 n found.1) found.2⟩
  | none =>
    rw [List.find?_eq_none] at h
    simp only [Except.ok.injEq, iff_and_self]
    exact fun _ n hn => by simpa using h n hn

theorem exists_of_checked {names : List String} {n : String} (hn : n ∈ names)
    (hnot : n ∉ d.columnNames) :
    ∃ m ∈ names, m ∉ d.columnNames ∧ checked d names t = .error (.noColumn d.fullName m) := by
  cases h : names.find? (· ∉ d.columnNames) with
  | some m =>
    refine ⟨m, List.mem_of_find?_eq_some h, by simpa using List.find?_some h, ?_⟩
    rw [checked, h]
  | none => exact absurd (by simpa using List.find?_eq_none.mp h n hn) hnot

/-- Steps that check the names they add check all the names they add. -/
theorem foldlM_checked {α : Type} {f : Table → α → Except Error Table} {g : Table → α → Table}
    {names : α → List String} (hf : ∀ t a, Of d t → f t a = checked d (names a) (g t a))
    (hg : ∀ t a, Of d t → Of d (g t a)) (as : List α) (ht : Of d t) :
    as.foldlM f t = checked d (as.flatMap names) (as.foldl g t) ∧ Of d (as.foldl g t) := by
  induction as generalizing t with
  | nil => exact ⟨rfl, ht⟩
  | cons a as ih =>
    obtain ⟨same, of⟩ := ih (hg t a ht)
    refine ⟨?_, of⟩
    rw [List.foldlM_cons, hf t a ht, List.flatMap_cons, List.foldl_cons]
    exact checked_bind same (names a)

theorem of_addPrimaryKey (ht : Of d t) (n : String) : Of d (t.addPrimaryKey n) :=
  ⟨ht.1, (map_mark Column.name_primary).trans ht.2⟩

theorem of_addDistKey (ht : Of d t) (n : String) : Of d (t.addDistKey n) :=
  ⟨ht.1, (map_mark Column.name_distkey).trans ht.2⟩

theorem of_addSortKey (ht : Of d t) (n : String) : Of d (t.addSortKey n) :=
  ⟨ht.1, (map_mark Column.name_sortkey).trans ht.2⟩

/-- A step that flags one column checks one name. -/
theorem map_changeColumn {change : Column → Column} {f : List Column → Table} (ht : Of d t)
    (n : String) : (changeColumn t.fullName n change t.columns).map f =
      checked d [n] (f (mark change t.columns n)) := by
  have columns : n ∈ t.columns.map (·.name) ↔ n ∈ d.columnNames := by rw [← ht.2]; rfl
  rw [changeColumn_eq, ht.1]
  simp only [columns]
  by_cases h : n ∈ d.columnNames <;> simp [checked, h, Except.map]

theorem withPrimaryKey_eq (ht : Of d t) (n : String) :
    t.withPrimaryKey n = checked d [n] (t.addPrimaryKey n) :=
  map_changeColumn ht n

theorem withDistKey_eq (ht : Of d t) (n : String) :
    t.withDistKey n = checked d [n] (t.addDistKey n) :=
  map_changeColumn ht n

theorem withSortKey_eq (ht : Of d t) (n : String) :
    t.withSortKey n = checked d [n] (t.addSortKey n) :=
  map_changeColumn ht n

theorem withConstraint_eq (ht : Of d t) (c : Sql.TableConstraint) :
    t.withConstraint c = checked d c.names (t.addConstraint c) ∧ Of d (t.addConstraint c) := by
  cases c with
  | primaryKey columns =>
    have folded := foldlM_checked (fun t n ht => withPrimaryKey_eq ht n)
      (fun t n ht => of_addPrimaryKey ht n) columns ht
    rw [List.flatMap_singleton'] at folded
    exact folded
  | foreignKey columns reference =>
    have declared (n : String) : (!t.columns.any (·.name == n)) = decide (n ∉ d.columnNames) := by
      rw [← ht.2, Table.columnNames, Bool.eq_iff_iff]
      simp only [Bool.not_eq_true', List.any_eq_false, beq_iff_eq, decide_eq_true_eq, List.mem_map,
        not_exists, not_and]
    refine ⟨?_, ht.1, ht.2⟩
    simp only [withConstraint, checked, addConstraint, declared, Sql.TableConstraint.names]
    cases columns.find? fun n => decide (n ∉ d.columnNames) with
    | none => rfl
    | some n => simp only [ht.1]

end reading

/-! ### The whole reading -/

theorem foldl_addPrimaryKey (names : List String) (t : Table) : names.foldl addPrimaryKey t =
    { t with
      columns := names.foldl (mark Column.primary) t.columns
      primaryKeys := names.foldl pushNew t.primaryKeys } := by
  induction names generalizing t with
  | nil => rfl
  | cons n names ih => rw [List.foldl_cons, ih]; rfl

theorem foldl_addDistKey (names : List String) (t : Table) : names.foldl addDistKey t =
    { t with
      columns := names.foldl (mark Column.distkey) t.columns
      distKeys := names.foldl pushNew t.distKeys } := by
  induction names generalizing t with
  | nil => rfl
  | cons n names ih => rw [List.foldl_cons, ih]; rfl

theorem foldl_addSortKey (names : List String) (t : Table) : names.foldl addSortKey t =
    { t with
      columns := names.foldl (mark Column.sortkey) t.columns
      sortKeys := names.foldl pushNew t.sortKeys } := by
  induction names generalizing t with
  | nil => rfl
  | cons n names ih => rw [List.foldl_cons, ih]; rfl

theorem foldl_addConstraint (cs : List Sql.TableConstraint) (t : Table) :
    cs.foldl addConstraint t =
    { t with
      columns := (cs.flatMap (·.keyNames)).foldl (mark Column.primary) t.columns
      primaryKeys := (cs.flatMap (·.keyNames)).foldl pushNew t.primaryKeys
      foreignKeys := t.foreignKeys ++ cs.filterMap (·.foreignKey?) } := by
  induction cs generalizing t with
  | nil => simp
  | cons c cs ih =>
    rw [List.foldl_cons, ih, List.flatMap_cons, List.foldl_append, List.foldl_append]
    cases c with
    | primaryKey columns =>
      rw [addConstraint, foldl_addPrimaryKey]
      rfl
    | foreignKey columns reference =>
      simp only [addConstraint, Sql.TableConstraint.keyNames, List.foldl_nil,
        List.filterMap_cons, Sql.TableConstraint.foreignKey?, List.append_assoc,
        List.singleton_append]

section

variable (s : Sql.Statement) (d : Sql.TableDef)

/-- The names in the primary key, those of the columns first. -/
def primaryNames : List String :=
  d.namesWhere (·.isPrimary) ++ d.constraints.flatMap (·.keyNames)

/-- The names in the distribution key, those of the table first. -/
def distNames : List String := d.distkey ++ d.namesWhere (·.isDistkey)

/-- The names in the sort key, those of the table first. -/
def sortNames : List String := d.sortkey ++ d.namesWhere (·.isSortkey)

/-- The table with its constraints. -/
def keyed : Table :=
  { ofColumns s d with
    columns := (d.constraints.flatMap (·.keyNames)).foldl (mark Column.primary)
      (d.columns.map Column.ofDef)
    primaryKeys := (primaryNames d).eraseDups
    foreignKeys := d.columns.filterMap (·.foreignKey?) ++ d.constraints.filterMap (·.foreignKey?) }

/-- The table with its constraints and its distribution key. -/
def distributed : Table :=
  { keyed s d with
    columns := (distNames d).foldl (mark Column.distkey) (keyed s d).columns
    distKeys := (distNames d).eraseDups }

/-- The table with its constraints and all its keys. -/
def sorted : Table :=
  { distributed s d with
    columns := (sortNames d).foldl (mark Column.sortkey) (distributed s d).columns
    sortKeys := (sortNames d).eraseDups }

theorem isPrimary_ofDef (c : Sql.ColumnDef) : (Column.ofDef c).isPrimary = c.isPrimary := by
  unfold Column.ofDef
  cases c.isPrimary <;> rfl

theorem isDistkey_ofDef (c : Sql.ColumnDef) : (Column.ofDef c).isDistkey = c.isDistkey := by
  unfold Column.ofDef
  split <;> rfl

theorem isSortkey_ofDef (c : Sql.ColumnDef) : (Column.ofDef c).isSortkey = c.isSortkey := by
  unfold Column.ofDef
  split <;> rfl

theorem position_ofDef (c : Sql.ColumnDef) : (Column.ofDef c).position = c.position := by
  unfold Column.ofDef
  split <;> rfl

theorem reference_ofDef (c : Sql.ColumnDef) : (Column.ofDef c).reference = c.reference := by
  unfold Column.ofDef
  split <;> rfl

/-- Columns that agree with those of the definition on a flag have it under the same names. -/
theorem filter_map_name {columns : List Column} {flag : Column → Bool} {p : Sql.ColumnDef → Bool}
    (h : columns.map (fun c => (c.name, flag c)) = d.columns.map fun c => (c.name, p c)) :
    (columns.filter flag).map (·.name) = d.namesWhere p := by
  have pairs := congrArg (fun l => (l.filter (·.2)).map (·.1)) h
  simpa [List.filter_map, Function.comp_def, Sql.TableDef.namesWhere] using pairs

/-- What the constraints keep of every column. -/
theorem map_keyed {β : Type} {f : Column → β} {g : Sql.ColumnDef → β}
    (hf : ∀ c, f c.primary = f c) (hg : ∀ c, f (Column.ofDef c) = g c) :
    (keyed s d).columns.map f = d.columns.map g := by
  rw [keyed, map_foldl_mark hf, List.map_map]
  exact List.map_congr_left fun c _ => hg c

/-- What constraints and the distribution key keep of every column. -/
theorem map_distributed {β : Type} {f : Column → β} {g : Sql.ColumnDef → β}
    (hf : ∀ c, f c.primary = f c) (hf' : ∀ c, f c.distkey = f c)
    (hg : ∀ c, f (Column.ofDef c) = g c) : (distributed s d).columns.map f = d.columns.map g := by
  rw [distributed, map_foldl_mark hf', map_keyed s d hf hg]

/-- What all keys keep of every column. -/
theorem map_sorted {β : Type} {f : Column → β} {g : Sql.ColumnDef → β}
    (hf : ∀ c, f c.primary = f c) (hf' : ∀ c, f c.distkey = f c) (hf'' : ∀ c, f c.sortkey = f c)
    (hg : ∀ c, f (Column.ofDef c) = g c) : (sorted s d).columns.map f = d.columns.map g := by
  rw [sorted, map_foldl_mark hf'', map_distributed s d hf hf' hg]

theorem foldl_constraints : d.constraints.foldl addConstraint (ofColumns s d) = keyed s d := by
  have primary : (ofColumns s d).primaryKeys = (d.namesWhere (·.isPrimary)).eraseDups := by
    refine congrArg List.eraseDups (filter_map_name d ?_)
    simp [List.map_map, Function.comp_def, isPrimary_ofDef]
  have foreign : (ofColumns s d).foreignKeys = d.columns.filterMap (·.foreignKey?) := by
    simp [ofColumns, List.filterMap_map, reference_ofDef, Sql.ColumnDef.foreignKey?]
  rw [foldl_addConstraint, primary, foreign, foldl_pushNew]
  rfl

theorem foldl_distNames : (distNames d).foldl addDistKey (keyed s d) = distributed s d := by
  have none : (keyed s d).distKeys = [].eraseDups := rfl
  rw [foldl_addDistKey, none, foldl_pushNew]
  rfl

theorem foldl_sortNames : (sortNames d).foldl addSortKey (distributed s d) = sorted s d := by
  have none : (distributed s d).sortKeys = [].eraseDups := rfl
  rw [foldl_addSortKey, none, foldl_pushNew]
  rfl

theorem of_ofColumns : Of d (ofColumns s d) := by
  refine ⟨rfl, ?_⟩
  simp [ofColumns, Table.columnNames, Sql.TableDef.columnNames, List.map_map, Function.comp_def]

theorem find?_append_of_subset {names more : List String} (h : more ⊆ d.columnNames) :
    (names ++ more).find? (· ∉ d.columnNames) = names.find? (· ∉ d.columnNames) := by
  have none : more.find? (· ∉ d.columnNames) = none :=
    List.find?_eq_none.mpr fun n hn => by simpa using h hn
  rw [List.find?_append, none, Option.or_none]

/-- Reading a definition is one check of its lists. -/
theorem ofDef_eq : ofDef s d = checked d d.listed (sorted s d) := by
  obtain ⟨keys, of⟩ := foldlM_checked (fun t c ht => (withConstraint_eq ht c).1)
    (fun t c ht => (withConstraint_eq ht c).2) d.constraints (of_ofColumns s d)
  rw [foldl_constraints] at keys of
  obtain ⟨dist, of'⟩ := foldlM_checked (fun t n ht => withDistKey_eq ht n)
    (fun t n ht => of_addDistKey ht n) (distNames d) of
  rw [foldl_distNames, List.flatMap_singleton'] at dist
  rw [foldl_distNames] at of'
  obtain ⟨sort, -⟩ := foldlM_checked (fun t n ht => withSortKey_eq ht n)
    (fun t n ht => of_addSortKey ht n) (sortNames d) of'
  rw [foldl_sortNames, List.flatMap_singleton'] at sort
  have distkeys : (keyed s d).namesWhere (·.isDistkey) = d.namesWhere (·.isDistkey) :=
    filter_map_name d (map_keyed s d (fun _ => rfl) fun c => by
      rw [Column.name_ofDef, isDistkey_ofDef])
  have sortkeys : (distributed s d).namesWhere (·.isSortkey) = d.namesWhere (·.isSortkey) :=
    filter_map_name d (map_distributed s d (fun _ => rfl) (fun _ => rfl) fun c => by
      rw [Column.name_ofDef, isSortkey_ofDef])
  have steps : ofDef s d = checked d
      (d.constraints.flatMap (·.names) ++ (distNames d ++ sortNames d)) (sorted s d) := by
    rw [ofDef, keys]
    refine checked_bind ?_ _
    rw [distkeys, ← distNames, dist]
    refine checked_bind ?_ _
    rw [sortkeys]
    exact sort
  have names : (d.constraints.flatMap (·.names) ++ (distNames d ++ sortNames d)).find?
      (· ∉ d.columnNames) = d.listed.find? (· ∉ d.columnNames) := by
    rw [Sql.TableDef.listed, distNames, sortNames, List.find?_append, List.find?_append,
      find?_append_of_subset d (d.namesWhere_subset _),
      find?_append_of_subset d (d.namesWhere_subset _), List.find?_append, List.find?_append]
  rw [steps, checked, checked, names]

end

/-! ### Keys and flags -/

/-- A list of keys: the names in an order, each once, which are the names of the columns that carry
a flag. -/
structure IsKeyList (keys : List String) (flag : Column → Bool) (columns : List Column)
    (order : List String) : Prop where
  mem_iff (n : String) : n ∈ keys ↔ Flagged flag columns n
  named : ∀ n ∈ keys, n ∈ columns.map (·.name)
  nodup : keys.Nodup
  keys_eq : keys = order.eraseDups

theorem isKeyList_eraseDups {flag : Column → Bool} {columns : List Column} {order : List String}
    (h : ∀ n, Flagged flag columns n ↔ n ∈ order) :
    IsKeyList order.eraseDups flag columns order where
  mem_iff n := by rw [List.mem_eraseDups, h]
  named n hn := by
    obtain ⟨c, hc, rfl, -⟩ := (h n).mpr (List.mem_eraseDups.mp hn)
    exact List.mem_map_of_mem hc
  nodup := nodup_eraseDups order
  keys_eq := rfl

/-- The keys, the flags and the foreign keys of a table are those that the definition declares. -/
structure HasKeysOf (t : Table) (d : Sql.TableDef) : Prop where
  columns : t.columns.map (fun c => (c.name, c.position)) = d.columnNames.zipIdx
  notNull : ∀ c ∈ t.columns, c.isPrimary = true → c.nullability = .notNull
  primaryKeys : IsKeyList t.primaryKeys (·.isPrimary) t.columns (primaryNames d)
  distKeys : IsKeyList t.distKeys (·.isDistkey) t.columns (distNames d)
  sortKeys : IsKeyList t.sortKeys (·.isSortkey) t.columns (sortNames d)
  foreignKeys : t.foreignKeys =
    d.columns.filterMap (·.foreignKey?) ++ d.constraints.filterMap (·.foreignKey?)
  declared : ∀ k ∈ t.foreignKeys, ∀ n ∈ k.columns, n ∈ t.columnNames

section

variable {s : Sql.Statement} {d : Sql.TableDef}

theorem flagged_iff_mem {flag : Column → Bool} {columns : List Column} {n : String} :
    Flagged flag columns n ↔ n ∈ (columns.filter flag).map (·.name) := by
  simp only [Flagged, List.mem_map, List.mem_filter]
  exact exists_congr fun c => by tauto

/-- Columns that lost no flag and gained none. -/
theorem flagged_foldl_mark_of_keeps {change : Column → Column} {flag : Column → Bool}
    (hname : ∀ c, (change c).name = c.name) (hflag : ∀ c, flag (change c) = flag c)
    (names : List String) (columns : List Column) (n : String) :
    Flagged flag (names.foldl (mark change) columns) n ↔ Flagged flag columns n :=
  flagged_congr (map_foldl_mark fun c => by rw [hname, hflag])

theorem columnNames_keyed (s : Sql.Statement) (d : Sql.TableDef) :
    (keyed s d).columns.map (·.name) = d.columnNames :=
  map_keyed s d Column.name_primary Column.name_ofDef

theorem columnNames_sorted (s : Sql.Statement) (d : Sql.TableDef) :
    (sorted s d).columnNames = d.columnNames :=
  map_sorted s d Column.name_primary Column.name_distkey Column.name_sortkey Column.name_ofDef

theorem keyNames_subset (h : ∀ n ∈ d.listed, n ∈ d.columnNames) :
    ∀ n ∈ d.constraints.flatMap (·.keyNames), n ∈ (d.columns.map Column.ofDef).map (·.name) := by
  intro n hn
  obtain ⟨c, hc, hn⟩ := List.mem_flatMap.mp hn
  have names : (d.columns.map Column.ofDef).map (·.name) = d.columnNames :=
    (of_ofColumns ⟨""⟩ d).2
  rw [names]
  refine h n (List.mem_append_left _ (List.mem_flatMap.mpr ⟨c, hc, ?_⟩))
  cases c with
  | primaryKey columns => exact hn
  | foreignKey columns reference => cases hn

theorem flagged_isPrimary (h : ∀ n ∈ d.listed, n ∈ d.columnNames) (n : String) :
    Flagged (·.isPrimary) (sorted s d).columns n ↔ n ∈ primaryNames d := by
  rw [sorted, flagged_foldl_mark_of_keeps Column.name_sortkey (fun _ => rfl), distributed,
    flagged_foldl_mark_of_keeps Column.name_distkey (fun _ => rfl), keyed,
    flagged_foldl_mark Column.name_primary (fun _ => rfl) (keyNames_subset h), flagged_iff_mem,
    filter_map_name d (p := (·.isPrimary)) ?_, primaryNames, List.mem_append]
  simp [List.map_map, Function.comp_def, isPrimary_ofDef]

theorem flagged_isDistkey (h : ∀ n ∈ d.listed, n ∈ d.columnNames) (n : String) :
    Flagged (·.isDistkey) (sorted s d).columns n ↔ n ∈ distNames d := by
  have declared : ∀ n ∈ distNames d, n ∈ (keyed s d).columns.map (·.name) := by
    rw [columnNames_keyed, distNames, List.forall_mem_append]
    refine ⟨fun n hn => h n ?_, d.namesWhere_subset _⟩
    exact List.mem_append_right _ (List.mem_append_left _ hn)
  have before : Flagged (·.isDistkey) (keyed s d).columns n ↔ n ∈ d.namesWhere (·.isDistkey) := by
    rw [flagged_iff_mem, filter_map_name d (map_keyed s d (fun _ => rfl) fun c => ?_)]
    rw [Column.name_ofDef, isDistkey_ofDef]
  rw [sorted, flagged_foldl_mark_of_keeps Column.name_sortkey (fun _ => rfl), distributed,
    flagged_foldl_mark Column.name_distkey (fun _ => rfl) declared, before, distNames,
    List.mem_append]
  tauto

theorem flagged_isSortkey (h : ∀ n ∈ d.listed, n ∈ d.columnNames) (n : String) :
    Flagged (·.isSortkey) (sorted s d).columns n ↔ n ∈ sortNames d := by
  have declared : ∀ n ∈ sortNames d, n ∈ (distributed s d).columns.map (·.name) := by
    rw [distributed, map_foldl_mark Column.name_distkey, columnNames_keyed, sortNames,
      List.forall_mem_append]
    refine ⟨fun n hn => h n ?_, d.namesWhere_subset _⟩
    exact List.mem_append_right _ (List.mem_append_right _ hn)
  have before :
      Flagged (·.isSortkey) (distributed s d).columns n ↔ n ∈ d.namesWhere (·.isSortkey) := by
    rw [flagged_iff_mem,
      filter_map_name d (map_distributed s d (fun _ => rfl) (fun _ => rfl) fun c => ?_)]
    rw [Column.name_ofDef, isSortkey_ofDef]
  rw [sorted, flagged_foldl_mark Column.name_sortkey (fun _ => rfl) declared, before, sortNames,
    List.mem_append]
  tauto

theorem hasKeysOf_sorted (h : ∀ n ∈ d.listed, n ∈ d.columnNames)
    (positions : d.columns.map (·.position) = List.range' 0 d.columns.length) :
    (sorted s d).HasKeysOf d where
  columns := by
    rw [map_sorted s d (g := fun c => (c.name, c.position)) (fun _ => rfl) (fun _ => rfl)
      (fun _ => rfl) fun c => by rw [Column.name_ofDef, position_ofDef], List.zipIdx_eq_zip_range',
      Sql.TableDef.columnNames, List.length_map, ← positions, List.zip_map']
  notNull c _ := c.notNull_of_isPrimary
  primaryKeys := isKeyList_eraseDups (flagged_isPrimary h)
  distKeys := isKeyList_eraseDups (flagged_isDistkey h)
  sortKeys := isKeyList_eraseDups (flagged_isSortkey h)
  foreignKeys := rfl
  declared k hk n hn := by
    rw [columnNames_sorted]
    rcases List.mem_append.mp hk with hk | hk
    · obtain ⟨c, hc, hk⟩ := List.mem_filterMap.mp hk
      obtain ⟨r, -, rfl⟩ := Option.map_eq_some_iff.mp hk
      rw [List.mem_singleton.mp hn]
      exact List.mem_map_of_mem hc
    · obtain ⟨c, hc, hk⟩ := List.mem_filterMap.mp hk
      refine h n (List.mem_append_left _ (List.mem_flatMap.mpr ⟨c, hc, ?_⟩))
      cases c with
      | primaryKey columns => cases hk
      | foreignKey columns reference =>
        cases hk
        exact hn

end

/-- The keys of every accepted table agree with its columns and its lists, and a text whose lists
name a column that is not declared is refused. -/
theorem parse_keys (sql : String) :
    (∀ t, parse sql = .ok t → ∃ s d ts, Sql.Statement.parse sql = .ok s ∧
      Sql.TableDef.parse s.text = .ok d ∧ Sql.Token.scan s.text = .ok ts ∧
      Sql.Grammar.Declares 0 ts d.columns ∧ t.HasKeysOf d) ∧
    ∀ s d, Sql.Statement.parse sql = .ok s → Sql.TableDef.parse s.text = .ok d →
      ((∃ t, parse sql = .ok t) ↔ ∀ n ∈ d.listed, n ∈ d.columnNames) ∧
      ∀ n ∈ d.listed, n ∉ d.columnNames →
        ∃ m ∈ d.listed, m ∉ d.columnNames ∧ parse sql = .error (.noColumn d.fullName m) := by
  have reading {s d} (hs : Sql.Statement.parse sql = .ok s)
      (hd : Sql.TableDef.parse s.text = .ok d) : parse sql = checked d d.listed (sorted s d) := by
    rw [← ofDef_eq, parse, hs]
    change ofStatement s = _
    rw [ofStatement, hd]
    rfl
  refine ⟨fun t ht => ?_, fun s d hs hd => ⟨?_, fun n hn hnot => ?_⟩⟩
  · obtain ⟨s, hs, hst⟩ := parse_eq_ok_iff.mp ht
    obtain ⟨d, hd, -⟩ := ofStatement_eq_ok hst
    obtain ⟨ts, hts, columns⟩ := Sql.Grammar.declares_of_parse hd
    rw [reading hs hd, checked_eq_ok_iff] at ht
    obtain ⟨declared, rfl⟩ := ht
    exact ⟨s, d, ts, hs, hd, hts, columns, hasKeysOf_sorted declared columns.positions⟩
  · simp [reading hs hd, checked_eq_ok_iff]
  · rw [reading hs hd]
    exact exists_of_checked hn hnot

/-- A table whose keys stand in columns, between columns and behind them. -/
def mixedKeys : String :=
  "CREATE TABLE orders (id INT PRIMARY KEY NULL, UNIQUE (day), day DATE SORTKEY,
    FOREIGN KEY (day) REFERENCES days) SORTKEY (id)"

/-- A table sorted by a column that it does not declare. -/
def strayKey : String := "CREATE TABLE orders (id INT) SORTKEY (id, day)"

theorem parse_mixedKeys : (parse mixedKeys).toOption.map (fun t => (t.primaryKeys, t.sortKeys)) =
    some (["id", "day"], ["id", "day"]) := by decide +kernel

theorem parse_keys_orders :
    (∃ t s d, parse mixedKeys = .ok t ∧ Sql.Statement.parse mixedKeys = .ok s ∧
      Sql.TableDef.parse s.text = .ok d ∧ t.HasKeysOf d) ∧
    parse strayKey = .error (.noColumn "orders" "day") := by
  constructor
  · obtain ⟨t, ht, -⟩ := Outcome.exists_ok_of_map_toOption parse_mixedKeys
    obtain ⟨s, d, _, hs, hd, -, -, keys⟩ := (parse_keys mixedKeys).1 t ht
    exact ⟨t, s, d, ht, hs, hd, keys⟩
  · obtain ⟨s, hs, text⟩ := Outcome.exists_ok_of_map_toOption (f := Sql.Statement.text)
      (x := Sql.Statement.parse strayKey) (b := strayKey) (by decide +kernel)
    obtain ⟨d, hd, parts⟩ := Outcome.exists_ok_of_map_toOption
      (f := fun d => (d.fullName, d.listed, d.columnNames)) (x := Sql.TableDef.parse s.text)
      (b := ("orders", ["id", "day"], ["id"])) (by rw [text]; decide +kernel)
    simp only [Prod.mk.injEq] at parts
    obtain ⟨name, listed, columns⟩ := parts
    obtain ⟨m, hm, hnot, refused⟩ := ((parse_keys strayKey).2 s d hs hd).2 "day"
      (by simp [listed]) (by simp [columns])
    have day : m = "day" := by
      rw [listed] at hm
      rw [columns] at hnot
      simp_all
    rw [refused, name, day]

end EtlFlow.Warehouse.Table
