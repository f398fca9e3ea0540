import EtlFlow.Proofs.Warehouse.Header
import EtlFlow.Proofs.Warehouse.Rows
import EtlFlow.Proofs.Warehouse.Table
import EtlFlow.Step.Composite
/-!
# Loading beside a table

A safe load creates and fills a staging table before it touches its destination.  The two are
different tables whenever the destination's statement shows its name behind its head
(`safeCreateLoad_staging`); a quoted name right behind TABLE is overlooked, and the destination
itself is dropped (`staging_is_destination`).
-/

namespace EtlFlow.Warehouse

/-- The relation that a command makes, drops or changes. -/
def Command.object? : Command → Option String
  | .define sql => (Sql.TableDef.parse sql).toOption.map (·.fullName)
  | .clone name _ | .insertAll name _ | .deleteAll name | .deleteMatching name _ _ _ _
  | .insertRanked name _ _ _ | .drop name | .dropRelation _ name | .grant _ name _
  | .addForeignKey name _ | .expireChanged name _ _ _ | .expireVanished name _ _
  | .deleteCurrent name _ _ | .insertCurrent name _ _ => some name
  | .readAll _ => none

/-- The relation that a table's own statement makes is the table. -/
theorem object?_define_statement {s : Sql.Statement} {t : Table} (h : Table.ofStatement s = .ok t) :
    (Command.define t.statement.text).object? = some t.fullName := by
  obtain ⟨d, hd, hs, hname, -⟩ := Table.ofStatement_eq_ok h
  rw [Command.object?, hs, hd, hname]
  rfl

theorem object?_of_mem_grants {relation : String} {permissions : List Permission} :
    ∀ command ∈ permissions.flatMap (·.grants relation), command.object? = some relation := by
  intro command hc
  simp only [List.mem_flatMap, Permission.grants, List.mem_append, List.mem_map] at hc
  obtain ⟨p, -, ⟨u, -, rfl⟩ | ⟨g, -, rfl⟩⟩ := hc
  · rfl
  · rfl

namespace Table

open Sql Sql.Token Header in
/-- A table that gets a dotted name has that name, or a longer one when a period follows. -/
theorem fullName_of_renamed {s : Statement} {t u : Table} {n : String} {name behind : List Char}
    (hs : ∀ c ∈ s.text.toList.head?, Text.isBlank c = false) (ht : ofStatement s = .ok t)
    (h : named? t.statement.text = some (name, behind)) (hn : IsPath n) (hif : capitalised n ≠ "IF")
    (hu : t.renamed n = .ok u) :
    (u.fullName = n ∨ ∃ more, u.fullName = n ++ "." ++ more) ∧ (Opens behind → u.fullName = n) := by
  obtain ⟨ts, hts⟩ := hn
  obtain ⟨-, -, hst, -⟩ := ofStatement_eq_ok ht
  obtain ⟨x, hx, hu⟩ := parse_eq_ok_iff.mp hu
  obtain ⟨d, hd, -, hname, -⟩ := ofStatement_eq_ok hu
  rw [hst] at h hx
  rw [hname]
  exact fullName_of_rename hs h hts hif hx hd

end Table

end EtlFlow.Warehouse

namespace EtlFlow.Step

open Outcome Warehouse
open Sql.Token (IsPath)

/-- A file that defines a table holds one clean statement. -/
theorem readTable_eq_ok {c : Context} {path : String} {t : Table} (h : c.readTable path = .ok t) :
    ∃ s, Table.ofStatement s = .ok t ∧ ∀ d ∈ s.text.toList.head?, Text.isBlank d = false := by
  simp only [Context.readTable, Context.readScript, bind_eq_ok_iff, mapError_eq_ok_iff] at h
  obtain ⟨script, hscript, h⟩ := h
  rw [Table.ofScript] at h
  split at h
  · rename_i only honly
    refine ⟨only, h, ?_⟩
    rw [Sql.Script.ofFile] at hscript
    split at hscript
    · rename_i sql _
      cases hscript
      have mem : only.text ∈ (Sql.Script.ofText sql).texts := by
        rw [Sql.Script.texts, honly]
        exact List.mem_singleton_self _
      rw [Sql.Script.texts, Sql.Script.ofText, List.map_map, List.map_id''] at mem
      · exact Sql.head_of_mem_sanitize mem
      · exact fun _ => rfl
    · cases hscript
  · cases h

/-- A name with the ending of a staging table is no keyword. -/
theorem capitalised_append_staging (name : String) :
    Sql.capitalised (name ++ "_staging") ≠ "IF" := by
  intro h
  have mem : '_' ∈ (Sql.capitalised (name ++ "_staging")).toList := by
    rw [Sql.capitalised, String.toList_ofList, String.toList_append, List.mem_flatMap]
    exact ⟨'_', List.mem_append_right _ (by decide), by decide⟩
  rw [h] at mem
  revert mem
  decide

/-- What a safe load is made of. -/
theorem safeCreateLoad_eq_ok {c : Context} {a : SafeLoadArguments} {e : Expansion}
    (h : safeCreateLoad c a = .ok e) : ∃ destination staging input create load swap,
      c.readTable a.definition = .ok destination ∧
      destination.renamed (stagingName destination) = .ok staging ∧
      runScript c "CreateStaging" staging
        ((Relation.table staging).recreateScript c.settings.permissions) false false = .ok create ∧
      loadTable c "Load" staging input a.options = .ok load ∧ e = chained [create, load, swap] := by
  simp only [safeCreateLoad, bind_eq_ok_iff, mapError_eq_ok_iff, pure_eq_ok_iff] at h
  obtain ⟨destination, hdest, _, -, staging, hstaging, input, -, create, hcreate, load, hload,
    _, -, swap, -, rfl⟩ := h
  exact ⟨destination, staging, input, create, load, swap, hdest, hstaging, hcreate, hload, rfl⟩

/-- The first two activities of a safe load change the staging table alone.  It is not the
destination, in any case of letters, when the destination has a dotted name and its statement shows
a name behind its head; it has the destination's name with an ending when that name stands there in
one piece, with nothing but blanks before the columns.  A statement that shows no name is read again
as it is. -/
theorem safeCreateLoad_staging {c : Context} {a : SafeLoadArguments} {e : Expansion}
    (h : safeCreateLoad c a = .ok e) : ∃ destination staging input before after create load swap,
      c.readTable a.definition = .ok destination ∧ e = chained [create, load, swap] ∧
      runScript c "CreateStaging" staging
        (Command.script before ++ ⟨[staging.statement]⟩ ++ Command.script after) false false
          = .ok create ∧
      loadTable c "Load" staging input a.options = .ok load ∧
      (∀ command ∈ before ++ .define staging.statement.text :: after,
        command.object? = some staging.fullName) ∧
      (IsPath destination.fullName → ∀ name behind,
        Header.named? destination.statement.text = some (name, behind) →
        Text.sameAscii staging.fullName destination.fullName = false ∧
        (name = destination.fullName.toList → Sql.Opens behind →
          staging.fullName = destination.fullName ++ "_staging")) ∧
      (Header.named? destination.statement.text = none →
        Table.parse destination.statement.text = .ok staging) := by
  obtain ⟨destination, staging, input, create, load, swap, hdest, hstaging, hcreate, hload, he⟩ :=
    safeCreateLoad_eq_ok h
  obtain ⟨s, hs, hstart⟩ := readTable_eq_ok hdest
  obtain ⟨x, -, hx⟩ := Table.parse_eq_ok_iff.mp hstaging
  refine ⟨destination, staging, input, [.dropRelation "TABLE" staging.fullName],
    c.settings.permissions.flatMap (·.grants staging.fullName), create, load, swap, hdest, he, ?_,
    hload, ?_, ?_, fun hnone => ?_⟩
  · rw [← hcreate, Relation.recreateScript, Relation.createScript]
    exact congrArg (fun script => runScript c "CreateStaging" staging script false false)
      (congrArg Sql.Script.mk (List.append_assoc ..))
  · rw [List.singleton_append, List.forall_mem_cons, List.forall_mem_cons]
    exact ⟨rfl, object?_define_statement hx, object?_of_mem_grants⟩
  · intro hpath name behind hnamed
    obtain ⟨hname, hexact⟩ := Table.fullName_of_renamed hstart hs hnamed
      (hpath.append (e := "_staging") (by decide)) (capitalised_append_staging _) hstaging
    refine ⟨?_, fun _ => hexact⟩
    rcases hname with hname | ⟨more, hname⟩
    · rw [hname]
      exact not_sameAscii_append (by decide)
    · rw [hname, String.append_assoc, String.append_assoc]
      exact not_sameAscii_append (by simp)
  · rw [Table.renamed, Header.rename_of_named?_eq_none hnone] at hstaging
    exact hstaging

/-- A step that reads a node of the object store, where the file `t.sql` holds a definition. -/
def orders (definition : String) : Context where
  id := "load"
  settings := {}
  files := { entries := [(["t.sql"], .file definition.toUTF8)] }
  baseDirectory := ""
  pipeline := "orders"
  frequency := .oneTime
  schedule := "DefaultSchedule"
  runner := some (.resource "Ec2Resource")
  imageSeries := none
  warehouse := some "RedshiftDatabase"
  input := .single ⟨"raw", some ⟨"landing", "orders/", true⟩⟩
  maxRetries := 0
  alarm := none
  topic := none
  paths := ⟨⟨"etl", "src/", true⟩, ⟨"etl", "data/", true⟩, ⟨"etl", "logs/", true⟩⟩
  checkLogs := ⟨"etl", "qa/", true⟩

/-- The arguments of a safe load of the table in `t.sql`. -/
def ordersArguments : SafeLoadArguments where
  definition := "t.sql"
  options := ⟨none, none, false, false, none⟩
  analyze := true

theorem isPath_orders : IsPath "etl.orders" := by
  have parts : "etl.orders".toList = "etl".toList ++ '.' :: "orders".toList := by decide
  have etl : Sql.Token.IsIdentifier "etl".toList :=
    ⟨'e', "tl".toList, by decide, by decide, by decide⟩
  have orders : Sql.Token.IsIdentifier "orders".toList :=
    ⟨'o', "rders".toList, by decide, by decide, by decide⟩
  rw [IsPath, parts]
  exact ⟨_, .cons etl (.one orders)⟩

theorem safeCreateLoad_staging_orders : ∃ e, ∃ destination staging : Table, ∃ create load swap,
    safeCreateLoad (orders "create table etl.orders (id int primary key)") ordersArguments = .ok e ∧
      e = chained [create, load, swap] ∧ destination.fullName = "etl.orders" ∧
      staging.fullName = "etl.orders_staging" := by
  have loads : (safeCreateLoad (orders "create table etl.orders (id int primary key)")
      ordersArguments).isOk = true := by decide +kernel
  have reads :
      ((orders "create table etl.orders (id int primary key)").readTable "t.sql").toOption.map
        (fun t => (t.fullName, t.statement.text)) =
          some ("etl.orders", "create table etl.orders (id int primary key)") := by decide +kernel
  have named : Header.named? "create table etl.orders (id int primary key)" =
      some ("etl.orders".toList, " (id int primary key)".toList) := by decide +kernel
  have opens : Sql.Opens " (id int primary key)".toList := .blank (by decide) (.paren _)
  obtain ⟨e, he⟩ := exists_ok_of_isOk loads
  obtain ⟨t, ht, hdef⟩ := exists_ok_of_map_toOption reads
  rw [Prod.mk.injEq] at hdef
  obtain ⟨destination, staging, input, before, after, create, load, swap, hdest, hchain, -, -, -,
    hname, -⟩ := safeCreateLoad_staging he
  cases ht.symm.trans hdest
  rw [hdef.1, hdef.2] at hname
  exact ⟨e, t, staging, create, load, swap, he, hchain, hdef.1,
    (hname isPath_orders _ _ named).2 rfl opens⟩

/-- The quoted schema stands right behind TABLE, so no name is found to replace: the staging table
is the destination, which the first activity drops. -/
theorem staging_is_destination : ∃ c a e t create load swap, safeCreateLoad c a = .ok e ∧
    c.readTable a.definition = .ok t ∧ e = chained [create, load, swap] ∧
    runScript c "CreateStaging" t (Command.script [.dropRelation "TABLE" t.fullName] ++
      (Relation.table t).createScript c.settings.permissions) false false = .ok create := by
  have loads : (safeCreateLoad (orders "create table\"etl\".orders (id int primary key)")
      ordersArguments).isOk = true := by decide +kernel
  have same : ((orders "create table\"etl\".orders (id int primary key)").readTable
      "t.sql").toOption.map (fun t => decide ((t.renamed (stagingName t)).toOption = some t)) =
        some true := by decide +kernel
  obtain ⟨e, he⟩ := exists_ok_of_isOk loads
  obtain ⟨t, ht, hrenamed⟩ := exists_ok_of_map_toOption same
  obtain ⟨destination, staging, input, create, load, swap, hdest, hstaging, hcreate, -, hchain⟩ :=
    safeCreateLoad_eq_ok he
  cases ht.symm.trans hdest
  rw [decide_eq_true_eq, hstaging] at hrenamed
  cases hrenamed
  exact ⟨_, _, e, t, create, load, swap, he, ht, hchain, hcreate⟩

end EtlFlow.Step
