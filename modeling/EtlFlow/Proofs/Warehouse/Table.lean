import EtlFlow.Proofs.Outcome
import EtlFlow.Warehouse.Table
import Mathlib.Data.List.Nodup
/-!
# The keys of a table

A table is read in steps that add one key or one constraint each.  No step touches the statement,
the names or the columns beyond their flags (`SameColumns`), and each keeps the flags of the columns
and the lists of keys in agreement (`KeysAgree`).
-/

namespace EtlFlow.Warehouse.Table

open Outcome (bind_eq_ok_iff map_eq_ok_iff)

/-- `u` is `t` with other keys. -/
structure SameColumns (t u : Table) : Prop where
  statement : u.statement = t.statement
  fullName : u.fullName = t.fullName
  temporary : u.temporary = t.temporary
  ifNotExists : u.ifNotExists = t.ifNotExists
  columnNames : u.columnNames = t.columnNames

theorem SameColumns.refl (t : Table) : SameColumns t t := ⟨rfl, rfl, rfl, rfl, rfl⟩

theorem SameColumns.trans {t u v : Table} (h : SameColumns t u) (g : SameColumns u v) :
    SameColumns t v where
  statement := g.statement.trans h.statement
  fullName := g.fullName.trans h.fullName
  temporary := g.temporary.trans h.temporary
  ifNotExists := g.ifNotExists.trans h.ifNotExists
  columnNames := g.columnNames.trans h.columnNames

/-- The primary key names the columns that are flagged, each once. -/
structure KeysAgree (t : Table) : Prop where
  mem_iff (n : String) : n ∈ t.primaryKeys ↔ ∃ c ∈ t.columns, c.name = n ∧ c.isPrimary
  nodup : t.primaryKeys.Nodup

/-! ### One step -/

theorem changeColumn_eq_ok {table name : String} {change : Column → Column} {cs ds : List Column}
    (h : changeColumn table name change cs = .ok ds) : ∃ front c behind,
      cs = front ++ c :: behind ∧ c.name = name ∧ ds = front ++ change c :: behind := by
  induction cs generalizing ds with
  | nil => cases h
  | cons d cs ih =>
    rw [changeColumn] at h
    split at h
    · rename_i hd
      cases h
      exact ⟨[], d, cs, rfl, hd, rfl⟩
    · rw [map_eq_ok_iff] at h
      obtain ⟨es, hes, rfl⟩ := h
      obtain ⟨front, c, behind, rfl, hc, rfl⟩ := ih hes
      exact ⟨d :: front, c, behind, rfl, hc, rfl⟩

theorem mem_pushNew {names : List String} {name n : String} :
    n ∈ pushNew names name ↔ n ∈ names ∨ n = name := by
  unfold pushNew
  split
  · rename_i h
    constructor
    · exact .inl
    · rintro (hn | rfl)
      · exact hn
      · exact h
  · simp

theorem nodup_pushNew {names : List String} (h : names.Nodup) (name : String) :
    (pushNew names name).Nodup := by
  unfold pushNew
  split
  · exact h
  · rename_i hn
    refine List.nodup_append.mpr ⟨h, List.nodup_singleton name, ?_⟩
    intro a ha b hb hab
    rw [List.mem_singleton.mp hb] at hab
    exact hn (hab ▸ ha)

/-- A change of one column that keeps its name. -/
theorem sameColumns_change {t : Table} {name : String} {change : Column → Column}
    (hchange : ∀ c, (change c).name = c.name) {columns : List Column}
    (h : changeColumn t.fullName name change t.columns = .ok columns) :
    columns.map (·.name) = t.columnNames := by
  obtain ⟨front, c, behind, hc, -, rfl⟩ := changeColumn_eq_ok h
  simp [columnNames, hc, hchange]

theorem withPrimaryKey_eq_ok {t u : Table} {name : String} (h : t.withPrimaryKey name = .ok u) :
    SameColumns t u ∧ (t.KeysAgree → u.KeysAgree) := by
  rw [withPrimaryKey, map_eq_ok_iff] at h
  obtain ⟨columns, hc, rfl⟩ := h
  refine ⟨⟨rfl, rfl, rfl, rfl, sameColumns_change Column.name_primary hc⟩, fun ht => ⟨?_, ?_⟩⟩
  · obtain ⟨front, c, behind, hcs, hname, rfl⟩ := changeColumn_eq_ok hc
    intro n
    rw [mem_pushNew, ht.mem_iff, hcs, eq_comm (a := n)]
    have flagged : c.primary.isPrimary = true := rfl
    simp only [List.mem_append, List.mem_cons, or_and_right, exists_or, exists_eq_left,
      Column.name_primary, hname, flagged, and_true]
    grind
  · exact nodup_pushNew ht.nodup name

/-- A change that keeps the name and the flag of a key column changes nothing about the primary key.
-/
theorem keysAgree_change {t u : Table} {name : String} {change : Column → Column}
    (hname : ∀ c, (change c).name = c.name) (hflag : ∀ c, (change c).isPrimary = c.isPrimary)
    (h : changeColumn t.fullName name change t.columns = .ok u.columns)
    (hkeys : u.primaryKeys = t.primaryKeys) (ht : t.KeysAgree) : u.KeysAgree := by
  obtain ⟨front, c, behind, hcs, -, hu⟩ := changeColumn_eq_ok h
  refine ⟨fun n => ?_, hkeys ▸ ht.nodup⟩
  rw [hkeys, ht.mem_iff, hcs, hu]
  simp only [List.mem_append, List.mem_cons, or_and_right, exists_or, exists_eq_left, hname, hflag]

theorem withDistKey_eq_ok {t u : Table} {name : String} (h : t.withDistKey name = .ok u) :
    SameColumns t u ∧ (t.KeysAgree → u.KeysAgree) := by
  rw [withDistKey, map_eq_ok_iff] at h
  obtain ⟨columns, hc, rfl⟩ := h
  exact ⟨⟨rfl, rfl, rfl, rfl, sameColumns_change Column.name_distkey hc⟩,
    keysAgree_change (t := t) Column.name_distkey (fun _ => rfl) hc rfl⟩

theorem withSortKey_eq_ok {t u : Table} {name : String} (h : t.withSortKey name = .ok u) :
    SameColumns t u ∧ (t.KeysAgree → u.KeysAgree) := by
  rw [withSortKey, map_eq_ok_iff] at h
  obtain ⟨columns, hc, rfl⟩ := h
  exact ⟨⟨rfl, rfl, rfl, rfl, sameColumns_change Column.name_sortkey hc⟩,
    keysAgree_change (t := t) Column.name_sortkey (fun _ => rfl) hc rfl⟩

/-! ### Many steps -/

/-- What every step keeps, all steps keep. -/
theorem foldlM_eq_ok {α : Type} {f : Table → α → Except Error Table}
    (step : ∀ t a u, f t a = .ok u → SameColumns t u ∧ (t.KeysAgree → u.KeysAgree)) {as : List α}
    {t u : Table} (h : as.foldlM f t = .ok u) : SameColumns t u ∧ (t.KeysAgree → u.KeysAgree) := by
  induction as generalizing t with
  | nil =>
    cases h
    exact ⟨.refl _, id⟩
  | cons a as ih =>
    rw [List.foldlM_cons, bind_eq_ok_iff] at h
    obtain ⟨v, hv, h⟩ := h
    obtain ⟨same, agree⟩ := step t a v hv
    obtain ⟨same', agree'⟩ := ih h
    exact ⟨same.trans same', agree' ∘ agree⟩

theorem withConstraint_eq_ok {t u : Table} {c : Sql.TableConstraint}
    (h : t.withConstraint c = .ok u) : SameColumns t u ∧ (t.KeysAgree → u.KeysAgree) := by
  cases c with
  | primaryKey columns => exact foldlM_eq_ok (fun _ _ _ => withPrimaryKey_eq_ok) h
  | foreignKey columns reference =>
    rw [withConstraint] at h
    split at h
    · cases h
    · cases h
      exact ⟨⟨rfl, rfl, rfl, rfl, rfl⟩, fun ht => ⟨ht.mem_iff, ht.nodup⟩⟩

theorem nodup_eraseDups (names : List String) : names.eraseDups.Nodup := by
  induction h : names.length using Nat.strongRecOn generalizing names with
  | ind n ih =>
    cases names with
    | nil => simp
    | cons a names =>
      rw [List.eraseDups_cons, List.nodup_cons, List.mem_eraseDups]
      refine ⟨by simp, ih _ ?_ _ rfl⟩
      have := List.length_filter_le (fun b => !b == a) names
      rw [← h, List.length_cons]
      omega

theorem keysAgree_ofColumns (s : Sql.Statement) (d : Sql.TableDef) : (ofColumns s d).KeysAgree where
  mem_iff n := by
    simp only [ofColumns, List.mem_eraseDups, List.mem_map, List.mem_filter]
    constructor
    · rintro ⟨c, ⟨hc, hp⟩, rfl⟩
      exact ⟨c, hc, rfl, hp⟩
    · rintro ⟨c, hc, rfl, hp⟩
      exact ⟨c, ⟨hc, hp⟩, rfl⟩
  nodup := nodup_eraseDups _

/-- A table that a definition gives. -/
theorem ofDef_eq_ok {s : Sql.Statement} {d : Sql.TableDef} {t : Table} (h : ofDef s d = .ok t) :
    SameColumns (ofColumns s d) t ∧ t.KeysAgree := by
  simp only [ofDef, bind_eq_ok_iff] at h
  obtain ⟨u, hu, v, hv, h⟩ := h
  obtain ⟨same, agree⟩ := foldlM_eq_ok (fun _ _ _ => withConstraint_eq_ok) hu
  obtain ⟨same', agree'⟩ := foldlM_eq_ok (fun _ _ _ => withDistKey_eq_ok) hv
  obtain ⟨same'', agree''⟩ := foldlM_eq_ok (fun _ _ _ => withSortKey_eq_ok) h
  exact ⟨(same.trans same').trans same'', agree'' (agree' (agree (keysAgree_ofColumns s d)))⟩

/-- A table that a statement gives comes from the definition in its text. -/
theorem ofStatement_eq_ok {s : Sql.Statement} {t : Table} (h : ofStatement s = .ok t) :
    ∃ d, Sql.TableDef.parse s.text = .ok d ∧ t.statement = s ∧ t.fullName = d.fullName ∧
      t.columnNames = d.columns.map (·.name) ∧ t.KeysAgree := by
  simp only [ofStatement, bind_eq_ok_iff, Error.ofSql, Outcome.mapError_eq_ok_iff] at h
  obtain ⟨d, hd, h⟩ := h
  obtain ⟨same, agree⟩ := ofDef_eq_ok h
  refine ⟨d, hd, same.statement, same.fullName, ?_, agree⟩
  rw [same.columnNames, columnNames, ofColumns, List.map_map]
  exact List.map_congr_left fun c _ => Column.name_ofDef c

theorem parse_eq_ok_iff {sql : String} {t : Table} : parse sql = .ok t ↔
    ∃ s, Sql.Statement.parse sql = .ok s ∧ ofStatement s = .ok t := by
  simp only [parse, Outcome.bind_eq_ok_iff, Error.ofSql, Outcome.mapError_eq_ok_iff]

theorem requireKey_eq_ok_iff {t : Table} {purpose : String} :
    t.requireKey purpose = .ok () ↔ t.primaryKeys ≠ [] := by
  rw [requireKey, ite_eq_right_iff, List.isEmpty_iff]
  simp

end EtlFlow.Warehouse.Table
