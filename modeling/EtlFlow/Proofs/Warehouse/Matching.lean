import EtlFlow.Proofs.Sql.Legible
import EtlFlow.Proofs.Warehouse.Fresh
import EtlFlow.Proofs.Warehouse.Reading
/-!
# Deleting rows by their keys

The script that deletes the rows of a table whose keys are in a source pairs the keys with the columns
of the source by position, in a condition put together from names.  Where these are read again as they
are written, the condition is read as one equation for each key (`Table.deleteMatching_pairs`).  The
columns of a table are written with their quotes, those of a query without, so that a quoted column of
a query is not (`Sql.Token.scan_value_iff`).
-/

namespace EtlFlow.Warehouse

open Sql (Token IsQuiet StandsFor)
open Sql.TableTree (Name Names)
open Outcome (bind_eq_ok_iff)

/-! ### Conditions -/

/-- The tokens of an equation between a column of one relation and a column of another. -/
def equation (D Q : Names) (k p : Name) : List Token :=
  D.tokens .period ++ ([.period] ++ ([k.token] ++ ([.operator "="] ++
    (Q.tokens .period ++ ([.period] ++ [p.token])))))

/-- The tokens of equations with AND between them. -/
def condition (D Q : Names) (K P : List Name) : List Token :=
  [Token.word "AND" none].intercalate (List.zipWith (equation D Q) K P)

theorem standsFor_equations {D Q : Names} {K P : List Name} (hD : D.IsLegible) (hQ : Q.IsLegible)
    (hK : ∀ n ∈ K, n.IsLegible) (hP : ∀ n ∈ P, n.IsLegible) (hne : K ≠ [])
    (hlen : K.length ≤ P.length) :
    StandsFor (Command.equations D.dotted (K.map Name.text) Q.dotted (P.map Name.text)).toList
      (condition D Q K P) := by
  have one {k p : Name} (hk : k.IsLegible) (hp : p.IsLegible) :
      StandsFor (D.dotted ++ "." ++ k.text ++ " = " ++ Q.dotted ++ "." ++ p.text).toList
        (equation D Q k p) := by
    have joined := hD.standsFor.join Sql.links_period (hk.standsFor.join Sql.links_equals
      (hQ.standsFor.join Sql.links_period hp.standsFor))
    simpa [equation] using joined
  have texts : List.zipWith (fun l r => D.dotted ++ "." ++ l ++ " = " ++ Q.dotted ++ "." ++ r)
      (K.map Name.text) (P.map Name.text) = (K.zip P).map fun x =>
        D.dotted ++ "." ++ x.1.text ++ " = " ++ Q.dotted ++ "." ++ x.2.text := by
    rw [List.zipWith_map, ← List.map_uncurry_zip_eq_zipWith]
    rfl
  rw [Command.equations, condition, texts, ← List.map_uncurry_zip_eq_zipWith]
  refine Sql.standsFor_intercalate Sql.links_and ?_ ?_
  · rw [List.forall₂_map_left_iff, List.forall₂_map_right_iff, List.forall₂_same]
    exact fun x hx => one (hK _ (List.of_mem_zip hx).1) (hP _ (List.of_mem_zip hx).2)
  · obtain ⟨k, K, rfl⟩ := List.exists_cons_of_ne_nil hne
    cases P with
    | nil => cases hlen
    | cons p P => exact List.cons_ne_nil _ _

/-! ### The columns of a source -/

deriving instance DecidableEq for Sql.TableTree.Name

/-- The name that a token is, with its quotes. -/
def name? : Token → Option Name
  | .word v q => some ⟨v, q⟩
  | _ => none

/-- The last name in an expression. -/
def lastName? (expression : String) : Option Name :=
  (Token.scan expression).toOption.bind fun ts => (ts.filterMap name?).getLast?

theorem mem_of_lastName? {e : String} {n : Name} (h : lastName? e = some n) :
    ∃ ts, Sql.Token.scanChars e.toList = .ok ts ∧ n.token ∈ ts := by
  rw [lastName?, Option.bind_eq_some_iff] at h
  obtain ⟨ts, found, last⟩ := h
  obtain ⟨_, hts, rfl⟩ := Outcome.exists_ok_of_map_toOption (f := id) (by simpa using found)
  obtain ⟨t, ht, name⟩ := List.mem_filterMap.mp (List.mem_of_getLast? last)
  refine ⟨_, hts, ?_⟩
  cases t with
  | word v q =>
    cases name
    exact ht
  | _ => cases name

/-- Each name is that of an expression. -/
theorem exists_expression {es : List String} {ns : List Name} {n : Name}
    (h : List.Forall₂ (fun e n => lastName? e = some n) es ns) (hn : n ∈ ns) :
    ∃ e, lastName? e = some n := by
  induction h with
  | nil => cases hn
  | @cons e m es ns he _ ih =>
    rcases List.mem_cons.mp hn with rfl | hn
    · exact ⟨e, he⟩
    · exact ih hn

theorem columnName_eq_ok_iff {e v : String} : Sql.Select.columnName e = .ok v ↔
    ∃ n, lastName? e = some n ∧ n.value = v := by
  rw [Sql.Select.columnName, lastName?]
  cases Token.scan e with
  | error e => simp [Except.toOption]
  | ok ts =>
    have values {f : Token → Option String} (hf : ∀ t, f t = (name? t).map Name.value) :
        ts.filterMap f = (ts.filterMap name?).map Name.value := by
      rw [List.map_filterMap]
      exact List.filterMap_congr fun t _ => hf t
    dsimp only
    have read : (Except.ok ts : Except Sql.LexError (List Token)).toOption = some ts := rfl
    rw [read, Option.bind_some, values, List.getLast?_map]
    · cases (ts.filterMap name?).getLast? <;> simp
    · intro t
      cases t <;> rfl

namespace Origin

variable {o : Origin} {ns : List Name}

/-- The origin projects columns of these names: a table its own ones, a query each expression under its
last name. -/
def Projects : Origin → List Name → Prop
  | table t, ns => ns.map Name.text = t.columnNames
  | view v, ns => List.Forall₂ (fun e n => lastName? e = some n) v.query.columns ns
  | query q, ns => List.Forall₂ (fun e n => lastName? e = some n) q.columns ns

/-- How a column is written: that of a table with its quotes, that of a query without. -/
def written : Origin → Name → String
  | table _, n => n.text
  | view _, n | query _, n => n.value

theorem mapM_queryColumns {q : Query} {names : List String} :
    (Source.queryColumns q).mapM id = .ok names ↔
      ∃ ns, List.Forall₂ (fun e n => lastName? e = some n) q.columns ns ∧
        ns.map Name.value = names := by
  rw [Source.queryColumns, List.mapM_map]
  constructor
  · intro h
    have each := Outcome.forall₂_of_mapM h
    clear h
    generalize q.columns = es at each
    induction each with
    | nil => exact ⟨[], .nil, rfl⟩
    | cons he _ ih =>
      obtain ⟨n, hn, rfl⟩ := columnName_eq_ok_iff.mp he
      obtain ⟨ns, hns, rfl⟩ := ih
      exact ⟨n :: ns, .cons hn hns, rfl⟩
  · rintro ⟨ns, hns, rfl⟩
    refine Outcome.mapM_of_forall₂ (List.forall₂_map_right_iff.mpr (hns.imp fun e n hn => ?_))
    exact columnName_eq_ok_iff.mpr ⟨n, hn, rfl⟩

theorem mapM_ok (names : List String) :
    (names.map Except.ok : List (Except Sql.Error String)).mapM id = .ok names :=
  Outcome.mapM_of_forall₂ (List.forall₂_map_left_iff.mpr (List.forall₂_same.mpr fun _ _ => rfl))

/-- The names of the columns are those under which they are projected, as they are written. -/
theorem names_eq_ok_iff {names : List String} :
    o.source.names = .ok names ↔ ∃ ns, o.Projects ns ∧ ns.map o.written = names := by
  rw [Source.names, Error.ofSql, Outcome.mapError_eq_ok_iff]
  cases o with
  | table t =>
    change (t.columnNames.map Except.ok).mapM id = .ok names ↔
      ∃ ns : List Name, ns.map Name.text = t.columnNames ∧ ns.map Name.text = names
    rw [mapM_ok]
    constructor
    · rintro ⟨⟩
      have bare : (t.columnNames.map fun n => Name.mk n none).map Name.text = t.columnNames := by
        rw [List.map_map]
        exact List.map_id _
      exact ⟨_, bare, bare⟩
    · rintro ⟨ns, h, rfl⟩
      rw [h]
  | view v => exact mapM_queryColumns
  | query q => exact mapM_queryColumns

theorem Projects.length_eq (h : o.Projects ns) : ns.length = o.source.width := by
  cases o with
  | table t =>
    have := congrArg List.length h
    simpa [source, Source.ofTable, Source.named, Source.width] using this
  | view v => simpa [source, Source.ofView, Source.queryColumns, Source.width] using h.length_eq.symm
  | query q => simpa [source, Source.ofQuery, Source.queryColumns, Source.width] using h.length_eq.symm

end Origin

namespace Table

variable {t : Table} {o : Origin} {c : Command} {D Q : Names} {K ns : List Name}

/-- Rows are deleted exactly when the table has a key and the columns of the source have names, as many
at least as there are keys; the command pairs the keys with the names as they are written. -/
theorem deleteMatching_eq_ok_iff : t.deleteMatching o.source = .ok c ↔ t.primaryKeys ≠ [] ∧
    t.primaryKeys.length ≤ o.source.width ∧ ∃ ns, o.Projects ns ∧ c = .deleteMatching t.fullName
      t.primaryKeys o.source.text o.source.qualifier (ns.map o.written) := by
  have paired {names : List String} : deleteFrom t.fullName t.primaryKeys o.source names = .ok c ↔
      t.primaryKeys.length ≤ names.length ∧ c = .deleteMatching t.fullName t.primaryKeys
        o.source.text o.source.qualifier names := by
    rw [deleteFrom]
    split
    · simp
      omega
    · simp [eq_comm]
      omega
  rw [deleteMatching, bind_eq_ok_iff]
  constructor
  · rintro ⟨u, hu, h⟩
    obtain ⟨names, hnames, h⟩ := bind_eq_ok_iff.mp h
    obtain ⟨ns, hns, rfl⟩ := Origin.names_eq_ok_iff.mp hnames
    obtain ⟨enough, rfl⟩ := paired.mp h
    rw [List.length_map, hns.length_eq] at enough
    exact ⟨requireKey_eq_ok_iff.mp hu, enough, ns, hns, rfl⟩
  · rintro ⟨hkeys, enough, ns, hns, rfl⟩
    refine ⟨(), requireKey_eq_ok_iff.mpr hkeys,
      bind_eq_ok_iff.mpr ⟨_, Origin.names_eq_ok_iff.mpr ⟨ns, hns, rfl⟩, ?_⟩⟩
    refine paired.mpr ⟨?_, rfl⟩
    rwa [List.length_map, hns.length_eq]

/-- The names that rows are deleted by are read again as they are written: those of the table, of the
qualifier, of the keys and of the columns beside the keys.  The text of a query is left as it is. -/
structure Legible (t : Table) (o : Origin) (D Q : Names) (K ns : List Name) : Prop where
  table : D.dotted = t.fullName
  qualifier : Q.dotted = o.source.qualifier
  keys : K.map Name.text = t.primaryKeys
  legible : D.IsLegible ∧ Q.IsLegible ∧ (∀ n ∈ K, n.IsLegible) ∧
    ∀ n ∈ ns.take K.length, n.IsLegible
  written : ∀ n ∈ ns.take K.length, o.written n = n.text
  query : ∀ q, o = .query q → IsQuiet q.sql.toList

theorem Legible.isQuiet_source (h : t.Legible o D Q K ns) : IsQuiet o.source.text.toList := by
  have relation : IsQuiet Q.dotted.toList := h.legible.2.1.standsFor.quiet
  rw [h.qualifier] at relation
  cases o with
  | table u => exact relation
  | view v => exact relation
  | query q =>
    have text : (Origin.query q).source.text.toList =
        ['('] ++ (q.sql.toList ++ ") AS source".toList) := by
      simp [Origin.source, Source.ofQuery]
    rw [text]
    exact (Sql.isQuiet_append (by decide) (by decide) (by decide) (by decide)
      (Sql.sameSign_cons (by decide) (by decide) _)).mpr (h.query q rfl)

theorem zipWith_take {α β γ : Type} (f : α → β → γ) {as : List α} {bs : List β}
    (h : as.length ≤ bs.length) :
    List.zipWith f as bs = List.zipWith f as (bs.take as.length) := by
  rw [List.zipWith_eq_zipWith_take_min, Nat.min_eq_left h, List.take_length]

/-- The condition of a command that is legible is read as one equation for each key. -/
theorem Legible.standsFor (h : t.Legible o D Q K ns) (hkeys : t.primaryKeys ≠ [])
    (enough : t.primaryKeys.length ≤ ns.length) :
    StandsFor (Command.equations t.fullName t.primaryKeys o.source.qualifier (ns.map o.written)).toList
      (condition D Q K ns) := by
  have hK : K ≠ [] := by
    rintro rfl
    exact hkeys (h.keys.symm.trans List.map_nil)
  obtain ⟨hD, hQ, hkey, hcolumn⟩ := h.legible
  rw [← h.keys, List.length_map] at enough
  have written : (ns.map o.written).take K.length = (ns.take K.length).map Name.text := by
    rw [← List.map_take]
    exact List.map_congr_left h.written
  have texts : Command.equations t.fullName t.primaryKeys o.source.qualifier (ns.map o.written) =
      Command.equations D.dotted (K.map Name.text) Q.dotted ((ns.take K.length).map Name.text) := by
    rw [Command.equations, ← h.keys, zipWith_take _ (by simpa using enough), List.length_map, written,
      h.table, h.qualifier]
    rfl
  rw [texts, condition, zipWith_take _ enough]
  exact standsFor_equations hD hQ hkey hcolumn hK (by rw [List.length_take]; omega)

/-- A legible condition stands in one statement. -/
theorem Legible.statements_script (h : t.Legible o D Q K ns) {clause : String} {ts : List Token}
    (hclause : StandsFor clause.toList ts) {c : Command}
    (hc : c.text = "DELETE FROM " ++ t.fullName ++ " USING " ++ o.source.text ++ " WHERE " ++ clause ++
      ";") : (Command.script [c]).statements = [⟨"DELETE FROM " ++ t.fullName ++ " USING " ++
        o.source.text ++ " WHERE " ++ clause⟩] := by
  have table : IsQuiet t.fullName.toList := h.table ▸ h.legible.1.standsFor.quiet
  have text : ("DELETE FROM " ++ t.fullName ++ " USING " ++ o.source.text ++ " WHERE " ++
      clause).toList = "DELETE FROM ".toList ++ (t.fullName.toList ++ (" USING ".toList ++
        (o.source.text.toList ++ (" WHERE ".toList ++ clause.toList)))) := by
    simp only [String.toList_append, List.append_assoc]
  have behind : IsQuiet (" WHERE ".toList ++ clause.toList) :=
    hclause.quiet.behind (by decide) (by decide)
  have source : IsQuiet (" USING ".toList ++ (o.source.text.toList ++
      (" WHERE ".toList ++ clause.toList))) :=
    (h.isQuiet_source.append behind (Sql.sameSign_cons (by decide) (by decide) _)).behind
      (by decide) (by decide)
  have quiet : IsQuiet ("DELETE FROM ".toList ++ (t.fullName.toList ++ (" USING ".toList ++
      (o.source.text.toList ++ (" WHERE ".toList ++ clause.toList))))) :=
    (table.append source (Sql.sameSign_cons (by decide) (by decide) _)).behind (by decide) (by decide)
  rw [Table.statements_script, hc, Sql.statements_ofText_eq_singleton_iff, text]
  refine ⟨⟨quiet.settled, Text.trim_eq_self ?_ ?_, ?_⟩, quiet.commentFree, .inl quiet.closed⟩
  · rintro d ⟨⟩
    decide
  · simp only [← List.append_assoc]
    rw [List.getLast?_append_of_ne_nil _ hclause.ne_nil]
    exact hclause.last
  · exact List.cons_ne_nil _ _

/-- The command is written exactly when the table has a key, every column of the source has a name, and
there are as many columns as keys.  Its condition pairs the keys with the columns by position: where the
names are read again as they are written, the script is one statement, and its condition is read as one
equation for each key, joined by AND, between the key in the table and the column of its position in
the source.  A column of a query is read again as the name under which it is projected exactly when
that name has no quotes. -/
theorem deleteMatching_pairs (t : Table) (o : Origin) :
    ((∃ c, t.deleteMatching o.source = .ok c) ↔ t.primaryKeys ≠ [] ∧ (∃ ns, o.Projects ns) ∧
      t.primaryKeys.length ≤ o.source.width) ∧
    ∀ c, t.deleteMatching o.source = .ok c → ∀ ns, o.Projects ns →
      (∀ D Q K, t.Legible o D Q K ns → ∃ clause : String,
        (Command.script [c]).statements = [⟨"DELETE FROM " ++ t.fullName ++ " USING " ++
          o.source.text ++ " WHERE " ++ clause⟩] ∧
        Token.scan clause = .ok (condition D Q K ns) ∧
        (List.zipWith (equation D Q) K ns).length = t.primaryKeys.length) ∧
      ((∀ u, o ≠ .table u) →
        ∀ n ∈ ns, Token.scan (o.written n) = .ok [n.token] ↔ n.quote = none) := by
  refine ⟨?_, fun c hc ns hns => ?_⟩
  · simp only [deleteMatching_eq_ok_iff]
    constructor
    · rintro ⟨c, hkeys, enough, ns, hns, -⟩
      exact ⟨hkeys, ⟨ns, hns⟩, enough⟩
    · rintro ⟨hkeys, ⟨ns, hns⟩, enough⟩
      exact ⟨_, hkeys, enough, ns, hns, rfl⟩
  obtain ⟨hkeys, enough, ms, hms, rfl⟩ := deleteMatching_eq_ok_iff.mp hc
  have same : ms.map o.written = ns.map o.written := by
    have one := Origin.names_eq_ok_iff.mpr ⟨ms, hms, rfl⟩
    have other := Origin.names_eq_ok_iff.mpr ⟨ns, hns, rfl⟩
    exact Except.ok.inj (one.symm.trans other)
  rw [← hns.length_eq] at enough
  rw [same]
  constructor
  · intro D Q K legible
    have stands := legible.standsFor hkeys enough
    refine ⟨_, legible.statements_script stands rfl, ?_, ?_⟩
    · have read := stands.reads [] nofun
      rw [List.append_nil] at read
      exact read.scan
    · rw [← legible.keys, List.length_map] at *
      rw [List.length_zipWith, Nat.min_eq_left enough]
  · intro queried n hn
    obtain ⟨⟨e, he⟩, written⟩ : (∃ e, lastName? e = some n) ∧ o.written n = n.value := by
      cases o with
      | table u => exact absurd rfl (queried u)
      | view v => exact ⟨exists_expression hns hn, rfl⟩
      | query q => exact ⟨exists_expression hns hn, rfl⟩
    obtain ⟨ts, hts, mem⟩ := mem_of_lastName? he
    rw [written]
    exact Sql.Token.scan_value_iff hts mem

/-- The lines of orders. -/
def lines : Table where
  statement := ⟨"create table shop.lines (id int, \"line no\" int, primary key (id, \"line no\"))"⟩
  fullName := "shop.lines"
  temporary := false
  ifNotExists := false
  columns := [(column "id" "int" 0).primary, (column "\"line no\"" "int" 1).primary]
  primaryKeys := ["id", "\"line no\""]
  foreignKeys := []
  diststyle := none

/-- The names of the lines, of what they are deleted by, and of their keys and its columns. -/
theorem legible_lines : lines.Legible (.query newest) ⟨⟨"shop", none⟩, [⟨"lines", none⟩]⟩
    ⟨⟨"source", none⟩, []⟩ [⟨"id", none⟩, ⟨"line no", some '"'⟩]
    [⟨"number", none⟩, ⟨"amount", none⟩] where
  table := by decide
  qualifier := by decide
  keys := by decide
  legible := by
    have plain {v : String} (h : Token.isPlainWord v.toList) : (Name.mk v none).IsLegible :=
      .inl (Token.isIdentifier_of_isPlainWord h).1
    have quoted : (Name.mk "line no" (some '"')).IsLegible :=
      .inl ⟨by decide, by decide, by decide⟩
    refine ⟨?_, ?_, ?_, ?_⟩
    · exact List.forall_mem_cons.mpr
        ⟨plain (by decide), List.forall_mem_singleton.mpr (plain (by decide))⟩
    · exact List.forall_mem_singleton.mpr (plain (by decide))
    · exact List.forall_mem_cons.mpr ⟨plain (by decide), List.forall_mem_singleton.mpr quoted⟩
    · exact List.forall_mem_cons.mpr
        ⟨plain (by decide), List.forall_mem_singleton.mpr (plain (by decide))⟩
  written := by decide
  query := by
    rintro q ⟨⟩
    decide

theorem deleteMatching_pairs_lines :
    ∃ c, lines.deleteMatching (Origin.query newest).source = .ok c ∧
      (∃ clause : String, (Command.script [c]).statements = [⟨"DELETE FROM " ++ lines.fullName ++
          " USING " ++ (Origin.query newest).source.text ++ " WHERE " ++ clause⟩] ∧
        Token.scan clause = .ok (condition ⟨⟨"shop", none⟩, [⟨"lines", none⟩]⟩
          ⟨⟨"source", none⟩, []⟩ [⟨"id", none⟩, ⟨"line no", some '"'⟩]
          [⟨"number", none⟩, ⟨"amount", none⟩])) ∧
      Token.scan "number" = .ok [.word "number" none] := by
  obtain ⟨written, pairs⟩ := deleteMatching_pairs lines (.query newest)
  have projects : (Origin.query newest).Projects [⟨"number", none⟩, ⟨"amount", none⟩] :=
    .cons (by decide +kernel) (.cons (by decide +kernel) .nil)
  obtain ⟨c, hc⟩ := written.mpr ⟨by decide, ⟨_, projects⟩, by decide⟩
  obtain ⟨stands, again⟩ := pairs c hc _ projects
  obtain ⟨clause, statement, read, -⟩ := stands _ _ _ legible_lines
  exact ⟨c, hc, ⟨clause, statement, read⟩,
    (again nofun ⟨"number", none⟩ (List.mem_cons_self ..)).mpr rfl⟩

/-- A query with a column whose name needs its quotes. -/
def quotedNumbers : Query := ⟨"SELECT \"Order Id\" FROM incoming", ["incoming"], ["\"Order Id\""]⟩

/-- The quotes of a projected name are lost, and the condition is no equation of names any more. -/
theorem deleteMatching_quoted :
    Query.parse "SELECT \"Order Id\" FROM incoming" = .ok quotedNumbers ∧
    (Origin.query quotedNumbers).Projects [⟨"Order Id", some '"'⟩] ∧
    ∃ c, orders.deleteMatching (Origin.query quotedNumbers).source = .ok c ∧
      (Command.script [c]).statements = [⟨"DELETE FROM shop.orders USING " ++
        "(SELECT \"Order Id\" FROM incoming) AS source WHERE " ++
          "shop.orders.id = source.Order Id"⟩] ∧
      Token.scan "shop.orders.id = source.Order Id" =
        .ok [.word "shop" none, .period, .word "orders" none, .period, .word "id" none,
          .operator "=", .word "source" none, .period, .word "Order" none, .word "Id" none] ∧
      Token.scan "shop.orders.id = source.Order Id" ≠
        .ok (condition ⟨⟨"shop", none⟩, [⟨"orders", none⟩]⟩ ⟨⟨"source", none⟩, []⟩
          [⟨"id", none⟩] [⟨"Order Id", some '"'⟩]) := by
  refine ⟨by decide +kernel, .cons (by decide +kernel) .nil, .deleteMatching "shop.orders" ["id"]
    "(SELECT \"Order Id\" FROM incoming) AS source" "source" ["Order Id"], ?_⟩
  decide +kernel

end Table

end EtlFlow.Warehouse
