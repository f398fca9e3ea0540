import EtlFlow.Proofs.Sql.Quiet
import EtlFlow.Proofs.Warehouse.Keys
import EtlFlow.Warehouse.Command
/-!
# Reading a table from a statement

A table is read from the definition in its own statement (`Table.Reads`), which is what the clean-up
gives and so is cut by it no more.  Another name or a guard in the definition changes the table there
and nowhere else (`Reads.ofDef_with`), and a statement without comments is read as it stands
(`parse_iff_of_isStatement`).
-/

namespace EtlFlow.Warehouse.Table

open Sql (CommentFree)

/-- The table is that of the definition in its statement. -/
structure Reads (t : Table) (d : Sql.TableDef) : Prop where
  statement : Sql.IsStatement t.statement.text.toList
  definition : Sql.TableDef.parse t.statement.text = .ok d
  table : ofDef t.statement d = .ok t

section

variable {t : Table} {d : Sql.TableDef}

theorem ofStatement_eq {s : Sql.Statement} (h : Sql.TableDef.parse s.text = .ok d) :
    ofStatement s = ofDef s d := by
  rw [ofStatement, h]
  rfl

/-- An accepted text has one statement, and the table is that of its definition. -/
theorem exists_reads {sql : String} (h : parse sql = .ok t) : ∃ d, t.Reads d := by
  obtain ⟨s, hs, ht⟩ := parse_eq_ok_iff.mp h
  obtain ⟨d, hd, rfl, -⟩ := ofStatement_eq_ok ht
  exact ⟨d, Sql.isStatement_of_parse hs, hd, by rw [← ofStatement_eq hd, ht]⟩

theorem Reads.fullName_eq (h : t.Reads d) : t.fullName = d.fullName := (ofDef_eq_ok h.table).1.fullName

theorem Reads.ifNotExists (h : t.Reads d) : t.ifNotExists = d.ifNotExists :=
  (ofDef_eq_ok h.table).1.ifNotExists

/-- What the keys keep of every column of the definition. -/
theorem Reads.map_columns (h : t.Reads d) : t.columns.map (fun c => (c.name, c.type, c.position)) =
    d.columns.map fun c => (c.name, c.type, c.position) := by
  have table := h.table
  rw [ofDef_eq, checked_eq_ok_iff] at table
  rw [← table.2]
  refine map_sorted _ _ (fun _ => rfl) (fun _ => rfl) (fun _ => rfl) fun c => ?_
  unfold Column.ofDef
  split <;> rfl

/-- The columns are numbered in their order, and there is one. -/
theorem Reads.positions (h : t.Reads d) :
    t.columns.map (·.position) = List.range' 0 t.columns.length ∧ t.columns ≠ [] := by
  have all := h.map_columns
  have lengths : t.columns.length = d.columns.length := by simpa using congrArg List.length all
  have positions := congrArg (List.map fun c : String × String × Nat => c.2.2) all
  simp only [List.map_map, Function.comp_def] at positions
  obtain ⟨ts, -, declared⟩ := Sql.Grammar.declares_of_parse h.definition
  obtain ⟨_, _, _, _, -, -, -, -, some_column⟩ := Sql.Grammar.exists_items_of_parse h.definition
  refine ⟨by rw [positions, declared.positions, lengths], fun none => some_column ?_⟩
  rwa [none, List.length_nil, eq_comm, List.length_eq_zero_iff] at lengths

/-- Another name and another guard change nothing else. -/
theorem Reads.ofDef_with (h : t.Reads d) (s : Sql.Statement) (name : String) (guard : Bool) :
    ofDef s { d with fullName := name, ifNotExists := guard } =
      .ok { t with statement := s, fullName := name, ifNotExists := guard } := by
  have table := h.table
  rw [ofDef_eq, checked_eq_ok_iff] at table ⊢
  refine ⟨table.1, ?_⟩
  rw [← table.2]
  rfl

end

/-- A statement without comments is read as it stands. -/
theorem parse_iff_of_isStatement {y : String} {u : Table} (h : Sql.IsStatement y.toList)
    (free : CommentFree y.toList) :
    parse y = .ok u ↔ ∃ e, Sql.TableDef.parse y = .ok e ∧ ofDef ⟨y⟩ e = .ok u := by
  rw [parse_eq_ok_iff, (Sql.parse_of_isStatement h free).1]
  constructor
  · rintro ⟨s, hs, hu⟩
    cases hs
    obtain ⟨e, he, -⟩ := ofStatement_eq_ok hu
    exact ⟨e, he, by rw [← ofStatement_eq (s := ⟨y⟩) he, hu]⟩
  · rintro ⟨e, he, hu⟩
    exact ⟨⟨y⟩, rfl, by rw [ofStatement_eq (s := ⟨y⟩) he, hu]⟩

/-- The statements of one command are those of its text. -/
theorem statements_script (c : Command) :
    (Command.script [c]).statements = (Sql.Script.ofText c.text).statements := List.append_nil _

theorem statements_define (sql : String) :
    (Command.script [.define sql]).statements = (Sql.Script.ofText sql).statements :=
  statements_script (.define sql)

end EtlFlow.Warehouse.Table
