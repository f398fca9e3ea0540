import EtlFlow.Proofs.Sql.ColumnText
import EtlFlow.Proofs.Warehouse.Merge
import EtlFlow.Proofs.Warehouse.Renaming
/-!
# The temporary clone of a table

The script of the clone is put together from the names and the types that the table keeps.  Where they
are read again as they are kept (`Column.IsPortable`), the script reads as a temporary table with the
same columns and without keys, if the flat name is an identifier; a quoted name never is one
(`Table.parse_temporaryClone`).
-/

namespace EtlFlow.Sql.Token

/-- A word whose name ends in a letter is a bare one. -/
theorem isIdentifier_nameText {v : String} {q : Option Char} {e : Char}
    (mark : ∃ c s r, Marks c s r (.word v q)) (last : (nameText v q).toList.getLast? = some e)
    (he : startsWord e) :
    IsIdentifier (nameText v q).toList ∨ (nameText v q).toList.head? = some '#' := by
  obtain ⟨c, s, r, mark⟩ := mark
  cases q with
  | none =>
    refine mark.2.2.symm.imp_right ?_
    rintro rfl
    have ne_nil : v.toList ≠ [] := by
      rintro hv
      rw [nameText, hv] at last
      cases last
    obtain ⟨d, u, hv⟩ := List.exists_cons_of_ne_nil ne_nil
    have word := mark.1
    rw [hv, List.cons_append, List.cons.injEq] at word
    rw [nameText, hv, word.1]
    rfl
  | some q =>
    -- a quoted word ends in its quote, which starts no word
    rw [nameText, String.toList_ofList, List.getLast?_concat, Option.some.injEq] at last
    rw [← last, mark.2] at he
    cases he

end EtlFlow.Sql.Token

namespace EtlFlow.Warehouse

open Sql Sql.Token Sql.Grammar
open Sql.TableTree (Name ColumnType)

/-- The tokens of the name of a definition. -/
theorem Header.exists_name_of_parse {sql : String} {d : TableDef} (h : TableDef.parse sql = .ok d) :
    ∃ ts ns, scanChars sql.toList = .ok ts ∧ ns ⊆ ts ∧ relationName ns = .ok (d.fullName, []) := by
  obtain ⟨ts, hts, hd⟩ := parse_eq_ok_iff.mp h
  obtain ⟨temporary, hs, us, rfl, ht, keys⟩ := ofTokens_eq_ok hd
  rw [ofTokens_eq ht keys, behindHead_eq_ok_iff] at hd
  obtain ⟨name, r, items, attributes, hname, -, rfl⟩ := hd
  obtain ⟨ns, hns, alone, -⟩ := relationName_eq_ok_iff.mp hname
  refine ⟨_, ns, hts, fun x hx => List.mem_append_right _ ?_, alone⟩
  have behind : x ∈ (if atGuard us then us.drop 3 else us) := by
    rw [hns]
    exact List.mem_append_left _ hx
  split at behind
  · exact List.mem_of_mem_drop behind
  · exact behind

/-! ### Columns of a clone -/

namespace Column

/-- The text of name and type is read as this name and this type, and starts no constraint. -/
def IsPortable (c : Column) : Prop :=
  ∃ (n : Name) (t : ColumnType), n.text = c.name ∧ t.text = c.type ∧ n.IsPortable ∧ t.IsPortable ∧
    n.token.isWord "CONSTRAINT" = false

/-- The definition of the column without what it says beyond name and type. -/
def bareDef (c : Column) : ColumnDef := { name := c.name, type := c.type, position := c.position }

/-- The column without what it says beyond name and type. -/
def bare (c : Column) : Column := .ofDef c.bareDef

/-- The text of a portable column is read as the column without attributes. -/
theorem IsPortable.exists_tokens {c : Column} (h : c.IsPortable) : ∃ ts : List Token,
    (∀ r, EndsArgument r → Sql.Token.Reads (c.text.toList ++ r) ts r) ∧
      ∀ r, atItemEnd r = true → tableItem c.position (ts ++ r) = .ok (.column c.bareDef, r) := by
  obtain ⟨n, t, name, type, hn, ht, word⟩ := h
  obtain ⟨u, hu, read⟩ := TableTree.exists_columnTokens hn ht
  rw [name, type] at read
  refine ⟨n.token :: u.tokens, read, fun r hr => ?_⟩
  rw [List.cons_append, TableTree.tableItem_plain word u c.position hr, name, hu, type]
  rfl

theorem IsPortable.isQuiet {c : Column} (h : c.IsPortable) : IsQuiet c.text.toList := by
  obtain ⟨n, t, name, type, hn, ht, -⟩ := h
  rw [text, ← name, ← type]
  exact TableTree.isQuiet_column hn ht

end Column

section columns

variable {c : Column} {cs : List Column}

theorem toList_commas_cons (h : cs ≠ []) :
    (Command.commas ((c :: cs).map Column.text)).toList =
      c.text.toList ++ ([',', ' '] ++ (Command.commas (cs.map Column.text)).toList) := by
  obtain ⟨d, ds, rfl⟩ := List.exists_cons_of_ne_nil h
  rw [Command.commas, List.map_cons, List.map_cons, String.intercalate_cons_cons]
  simp [Command.commas]

/-- A list of portable columns is read as these columns, numbered as they are. -/
theorem exists_itemTokens {position : Nat} (hne : cs ≠ []) (h : ∀ c ∈ cs, c.IsPortable)
    (hpos : cs.map (·.position) = List.range' position cs.length) : ∃ ts : List Token,
      (∀ r, Sql.Token.Reads ((Command.commas (cs.map Column.text)).toList ++ ')' :: r) ts (')' :: r)) ∧
      ∀ r, tableItems position (ts ++ .rparen :: r) =
        .ok (cs.map fun c => .column c.bareDef, .rparen :: r) := by
  induction cs generalizing position with
  | nil => exact absurd rfl hne
  | cons c cs ih =>
    rw [List.forall_mem_cons] at h
    rw [List.map_cons, List.length_cons, List.range'_succ, List.cons.injEq] at hpos
    obtain ⟨ts, read, item⟩ := h.1.exists_tokens
    rw [hpos.1] at item
    by_cases hcs : cs = []
    · subst hcs
      refine ⟨ts, fun r => ?_, fun r => ?_⟩
      · exact read _ (endsArgument_cons (.inr rfl))
      · exact TableTree.tableItems_last (item _ rfl) (by simp)
    · obtain ⟨us, reads, items⟩ := ih hcs h.2 hpos.2
      refine ⟨ts ++ .comma :: us, fun r => ?_, fun r => ?_⟩
      · rw [toList_commas_cons hcs, List.append_assoc, List.append_assoc]
        exact (read _ (endsArgument_cons (.inl rfl))).trans
          ((reads_symbol (t := .comma) (by simp) _).trans
            ((reads_blank (by decide)).trans (reads r)))
      · rw [List.append_assoc, List.cons_append, TableTree.tableItems_comma (item _ rfl)]
        change (tableItems (position + 1) _).map _ = _
        rw [items]
        rfl

theorem isQuiet_commas (h : ∀ c ∈ cs, c.IsPortable) :
    IsQuiet (Command.commas (cs.map Column.text)).toList := by
  induction cs with
  | nil => decide
  | cons c cs ih =>
    rw [List.forall_mem_cons] at h
    by_cases hcs : cs = []
    · subst hcs
      exact h.1.isQuiet
    · rw [toList_commas_cons hcs]
      exact h.1.isQuiet.append ((ih h.2).behind (by decide) (by decide))
        (sameSign_cons (by decide) (by decide) _)

/-! ### The definition of a clone -/

/-- The statement of a clone. -/
def cloneText (name : String) (cs : List Column) : String :=
  "CREATE TEMPORARY TABLE " ++ name ++ " (" ++ Command.commas (cs.map Column.text) ++ ")"

/-- A temporary table with columns that say nothing but name and type. -/
def cloneDef (name : String) (cs : List Column) : TableDef where
  fullName := name
  temporary := true
  ifNotExists := false
  columns := cs.map Column.bareDef
  constraints := []
  distkey := []
  sortkey := []
  diststyle := none

variable {name : String}

theorem toList_cloneText (name : String) (cs : List Column) : (cloneText name cs).toList =
    "CREATE TEMPORARY TABLE ".toList ++ (name.toList ++ ([' ', '('] ++
      ((Command.commas (cs.map Column.text)).toList ++ [')']))) := by
  have parts (a b c d e : String) : (a ++ b ++ c ++ d ++ e).toList =
      a.toList ++ (b.toList ++ (c.toList ++ (d.toList ++ e.toList))) := by
    simp
  exact parts _ _ _ _ _

theorem spells_clone :
    Header.Spells (Header.headWords (some "temporary") false) "CREATE TEMPORARY TABLE ".toList := by
  have temporary : Header.Spaced "temporary" "TEMPORARY ".toList :=
    ⟨"TEMPORARY".toList, [' '], by decide, by decide, by decide, by decide⟩
  have table : Header.Spaced "table" "TABLE ".toList :=
    ⟨"TABLE".toList, [' '], by decide, by decide, by decide, by decide⟩
  exact .cons Header.spaced_create (.cons temporary (.cons table .nil))

theorem isStatement_cloneText (hname : IsIdentifier name.toList) (h : ∀ c ∈ cs, c.IsPortable) :
    IsStatement (cloneText name cs).toList ∧ IsQuiet (cloneText name cs).toList := by
  have columns : IsQuiet ([' ', '('] ++ ((Command.commas (cs.map Column.text)).toList ++ [')'])) :=
    ((isQuiet_commas h).append (by decide) (sameSign_cons (by decide) (by decide) _)).behind
      (by decide) (by decide)
  have quiet : IsQuiet (cloneText name cs).toList := by
    rw [toList_cloneText]
    exact ((isQuiet_of_inWord hname.inWord).append columns
      (sameSign_cons (by decide) (by decide) _)).behind (by decide) (by decide)
  have last : (cloneText name cs).toList.getLast? = some ')' := by
    simp only [toList_cloneText, ← List.append_assoc, List.getLast?_concat]
  refine ⟨⟨quiet.settled, Text.trim_eq_self ?_ ?_, ?_⟩, quiet⟩
  · rw [toList_cloneText]
    rintro c ⟨⟩
    decide
  · rw [last]
    rintro c ⟨⟩
    decide
  · rintro h
    rw [h] at last
    cases last

theorem parse_cloneText (hname : IsIdentifier name.toList) (hne : cs ≠ [])
    (h : ∀ c ∈ cs, c.IsPortable) (hpos : cs.map (·.position) = List.range' 0 cs.length) :
    TableDef.parse (cloneText name cs) = .ok (cloneDef name cs) := by
  have temporary : Header.IsTemporary (some "temporary") := .inr (.inr rfl)
  obtain ⟨hs, keys, fronts⟩ :=
    spells_clone.fronts (Header.isPlain_of_mem_headWords temporary false)
  obtain ⟨ts, reads, items⟩ := exists_itemTokens hne h hpos
  have nothing : scanChars [] = .ok [] := by rw [scanChars.eq_def]
  have word (r : List Char) : Sql.Token.Reads (name.toList ++ ' ' :: r) [.word name none] (' ' :: r) := by
    have := hname.reads (endsWord_of_isBlank (d := ' ') (r := r) (by decide))
    rwa [String.ofList_toList] at this
  have all : Sql.Token.Reads (cloneText name cs).toList
      (hs ++ ([.word name none] ++ ([] ++ ([.lparen] ++ (ts ++ [.rparen]))))) [] := by
    rw [toList_cloneText]
    exact (fronts _).trans ((word _).trans ((reads_blank (by decide)).trans
      ((reads_symbol (t := .lparen) (by simp) _).trans
        ((reads []).trans (reads_symbol (t := .rparen) (by simp) [])))))
  rw [Sql.Token.Reads, nothing] at all
  refine Header.parse_eq_ok_iff.mpr ⟨_, all, ?_⟩
  have alone : relationName [.word name none] = .ok (name, []) := rfl
  change TableDef.ofTokens (hs ++ ([.word name none] ++ .lparen :: (ts ++ [.rparen])) ++ []) = _
  rw [List.append_nil, Header.ofTokens_head temporary keys fun _ => Header.atGuard_name alone rfl,
    Header.behindHead_eq_ok_iff]
  refine ⟨name, _, _, [], relationName_word (by simp), ⟨_, [], rfl, items [], rfl, ?_, ?_, rfl⟩, ?_⟩
  · obtain ⟨c, cs, rfl⟩ := List.exists_cons_of_ne_nil hne
    rfl
  · exact TableTree.tableAttributes_none rfl
  · simp [TableDef.assemble, cloneDef, List.filterMap_map]

end columns

namespace Table

/-! ### The table of a clone -/

/-- The temporary table with the columns of this one and without its keys. -/
def cloned (t : Table) (s : Statement) : Table where
  statement := s
  fullName := t.temporaryName
  temporary := true
  ifNotExists := false
  columns := t.columns.map Column.bare
  primaryKeys := []
  foreignKeys := []
  distKeys := []
  sortKeys := []
  diststyle := none

/-- The script of the clone is one statement, which reads as the temporary table with the columns of
this one and without its keys. -/
def Clones (t : Table) : Prop :=
  ∃ s, (Command.script [t.temporaryClone]).statements = [s] ∧ parse s.text = .ok (t.cloned s)

theorem ofDef_cloneDef (t : Table) (s : Statement) :
    ofDef s (cloneDef t.temporaryName t.columns) = .ok (t.cloned s) := by
  have no_keys {p : ColumnDef → Bool} (hp : ∀ c : Column, p c.bareDef = false) :
      (cloneDef t.temporaryName t.columns).namesWhere p = [] := by
    simp [TableDef.namesWhere, cloneDef, hp]
  rw [ofDef_eq, checked_eq_ok_iff]
  refine ⟨by simp [TableDef.listed, cloneDef], ?_⟩
  have primary : primaryNames (cloneDef t.temporaryName t.columns) = [] := by
    rw [primaryNames, no_keys fun _ => rfl]
    rfl
  have dist : distNames (cloneDef t.temporaryName t.columns) = [] := by
    rw [distNames, no_keys fun _ => rfl]
    rfl
  have sort : sortNames (cloneDef t.temporaryName t.columns) = [] := by
    rw [sortNames, no_keys fun _ => rfl]
    rfl
  rw [sorted, distributed, keyed, primary, dist, sort]
  simp [cloned, ofColumns, cloneDef, ColumnDef.foreignKey?, Column.bareDef, Column.bare]

section

variable {t : Table} {d : TableDef}

/-- Where the words of the statement are plain the columns are portable. -/
theorem Reads.isPortable (h : t.Reads d) (plain : Header.isPlainText t.statement.text.toList) :
    ∀ c ∈ t.columns, c.IsPortable := by
  intro c hc
  have declared : (c.name, c.type, c.position) ∈
      d.columns.map fun c => (c.name, c.type, c.position) := by
    rw [← h.map_columns]
    exact List.mem_map.mpr ⟨c, hc, rfl⟩
  obtain ⟨b, hb, same⟩ := List.mem_map.mp declared
  simp only [Prod.mk.injEq] at same
  obtain ⟨ts, us, items, r, hts, place, hitems, columns, -⟩ := exists_items_of_parse h.definition
  obtain ⟨start, p, q, behind, no_constraint, hstart⟩ :=
    TableTree.exists_of_mem_columnsOf hitems b (columns ▸ hb)
  obtain ⟨n, type, vs, rfl, name, text⟩ := TableTree.exists_of_column hstart
  have inside {x : Token} (hx : x ∈ n.token :: (type.tokens ++ vs)) : x ∈ ts :=
    (behind.trans place).subset hx
  have tokens := Header.isPlain_of_isPlainText plain hts
  have marks := marks_of_mem hts
  refine ⟨n, type, name.trans same.1, text.trans same.2.1,
    TableTree.Name.isPortable_of_isPlain (tokens _ (inside (by simp))),
    TableTree.ColumnType.isPortable_of_isPlain (fun x hx => tokens x (inside (by simp [hx])))
      (fun x hx => marks x (inside (by simp [hx]))), ?_⟩
  rw [atConstraint, Bool.or_eq_false_iff, Bool.or_eq_false_iff, Bool.or_eq_false_iff] at no_constraint
  exact no_constraint.1.1.1

/-- A name without a period that ends in a letter is that of a table only when it is a bare word. -/
theorem Reads.isIdentifier_fullName (h : t.Reads d) {e : Char} (no_period : '.' ∉ t.fullName.toList)
    (last : t.fullName.toList.getLast? = some e) (he : startsWord e) :
    IsIdentifier t.fullName.toList ∨ t.fullName.toList.head? = some '#' := by
  obtain ⟨ts, ns, hts, inside, alone⟩ := Header.exists_name_of_parse h.definition
  rw [h.fullName_eq] at no_period last ⊢
  have marks : ∀ x ∈ ns, ∃ c s r, Marks c s r x := fun x hx => marks_of_mem hts x (inside hx)
  generalize d.fullName = name at no_period last alone ⊢
  unfold relationName at alone
  split at alone
  · obtain ⟨⟨more, _⟩, -, halone⟩ := Outcome.map_eq_ok_iff.mp alone
    cases halone
    simp at no_period
  · cases alone
    exact isIdentifier_nameText (marks _ (List.mem_singleton.mpr rfl)) last he
  · cases alone

theorem clones_of_isPortable (h : t.Reads d) (hname : IsIdentifier t.temporaryName.toList)
    (hc : ∀ c ∈ t.columns, c.IsPortable) : t.Clones := by
  obtain ⟨positions, some_column⟩ := h.positions
  obtain ⟨statement, quiet⟩ := isStatement_cloneText hname hc
  have script := statements_ofText_eq_singleton_iff.mpr
    ⟨statement, quiet.commentFree, .inl quiet.closed⟩
  have text : t.temporaryClone.text = cloneText t.temporaryName t.columns ++ ";" := by
    have closing (s : String) : s ++ ");" = s ++ ")" ++ ";" := by
      rw [String.append_assoc]
      rfl
    exact closing _
  refine ⟨⟨cloneText t.temporaryName t.columns⟩, ?_, ?_⟩
  · rw [statements_script, text, script]
  · exact (parse_iff_of_isStatement statement quiet.commentFree).mpr
      ⟨_, parse_cloneText hname some_column hc positions, t.ofDef_cloneDef _⟩

theorem isIdentifier_of_clones (h : t.Clones) :
    IsIdentifier t.temporaryName.toList ∨ t.temporaryName.toList.head? = some '#' := by
  obtain ⟨s, -, hs⟩ := h
  obtain ⟨e, he⟩ := exists_reads hs
  have name : (t.cloned s).fullName.toList =
      (t.fullName.toList.map fun c => if c = '.' then '_' else c) ++ "_temp".toList :=
    toList_flatName t "_temp"
  refine he.isIdentifier_fullName (e := 'p') ?_ ?_ (by decide)
  · rw [name, List.mem_append, not_or]
    refine ⟨fun hp => ?_, by decide⟩
    obtain ⟨c, -, hc⟩ := List.mem_map.mp hp
    split at hc
    · cases hc
    · rename_i hne
      exact hne hc
  · rw [name, List.getLast?_append_of_ne_nil _ (by simp)]
    rfl

end

/-- The script of the clone reads as the clone when the flat name is an identifier and the columns are
portable, so it does for every statement in plain words.  It does so only when the flat name is an
identifier or starts with the mark of a local name, so for no quoted name. -/
theorem parse_temporaryClone {sql : String} {t : Table} (h : parse sql = .ok t) :
    (IsIdentifier t.temporaryName.toList → (∀ c ∈ t.columns, c.IsPortable) → t.Clones) ∧
      (Header.isPlainText t.statement.text.toList → t.Clones) ∧
      (t.Clones →
        IsIdentifier t.temporaryName.toList ∨ t.temporaryName.toList.head? = some '#') := by
  obtain ⟨d, hd⟩ := exists_reads h
  refine ⟨clones_of_isPortable hd, fun plain => ?_, isIdentifier_of_clones⟩
  have name : t.IsPlain := ⟨⟨sql, h⟩, plain⟩
  exact clones_of_isPortable hd name.isIdentifier_temporaryName (hd.isPortable plain)

/-- A table with a quoted column and with keys. -/
def pricedItems : String :=
  "CREATE TABLE etl.items (\"id\" INT PRIMARY KEY, price DECIMAL(10, 2) SORTKEY) DISTSTYLE ALL"

theorem parse_temporaryClone_pricedItems : ∃ t, parse pricedItems = .ok t ∧
    t.temporaryName = "etl_items_temp" ∧ t.Clones := by
  obtain ⟨t, ht, parts⟩ := Outcome.exists_ok_of_map_toOption
    (f := fun t : Table => (t.temporaryName, t.columns.map fun c => (c.name, c.type)))
    (x := parse pricedItems)
    (b := ("etl_items_temp", [("\"id\"", "INT"), ("price", "DECIMAL(10,2)")])) (by decide +kernel)
  obtain ⟨name, columns⟩ := Prod.mk.inj parts
  have flat : IsIdentifier t.temporaryName.toList := by
    rw [name]
    exact ⟨'e', "tl_items_temp".toList, by decide +kernel⟩
  refine ⟨t, ht, name, (parse_temporaryClone ht).1 flat fun c hc => ?_⟩
  have listed : (c.name, c.type) ∈ [("\"id\"", "INT"), ("price", "DECIMAL(10,2)")] :=
    columns ▸ List.mem_map.mpr ⟨c, hc, rfl⟩
  simp only [List.mem_cons, Prod.mk.injEq, List.not_mem_nil, or_false] at listed
  rcases listed with ⟨name, type⟩ | ⟨name, type⟩ <;> rw [Column.IsPortable, name, type]
  · refine ⟨⟨"id", some '"'⟩, ⟨⟨"INT", none⟩, by decide +kernel, [], .inl rfl, none⟩, by decide,
      by decide, ⟨by decide, by decide, by decide +kernel⟩, nofun, rfl⟩
  · have whole {c : Char} {ds : List Char} (hc : c.isDigit) (hd : IsDigits ds) :
        IsNumeral (c :: ds) := ⟨c :: ds, [], (List.append_nil _).symm, .whole hc hd, .missing⟩
    have ten : IsNumeral ['1', '0'] := whole (by decide) (by decide)
    have two : IsNumeral ['2'] := whole (by decide) (by decide)
    have known : knownTypes.contains (Text.upperAscii "DECIMAL") = true := by decide +kernel
    have unmarked : (Name.token ⟨"price", none⟩).isWord "CONSTRAINT" = false := by decide +kernel
    refine ⟨⟨"price", none⟩, ⟨⟨"DECIMAL", none⟩, known, [], .inl rfl,
      some [.number "10" false, .comma, .number "2" false]⟩, rfl, rfl,
      ⟨'p', "rice".toList, by decide +kernel⟩, ?_, unmarked⟩
    rintro as ⟨⟩
    simp only [List.forall_mem_cons, List.not_mem_nil, false_imp_iff, implies_true]
    exact ⟨ten, trivial, two, trivial⟩

/-- Where the name of a table is quoted, its clone is refused, and where a type has a quoted argument
with a blank in it, the clone has another type. -/
theorem quoted_name_ne_clone :
    (∃ t, parse "CREATE TABLE \"orders\" (id INT)" = .ok t ∧
      (Command.script [t.temporaryClone]).texts =
        ["CREATE TEMPORARY TABLE \"orders\"_temp (id INT)"] ∧ ¬t.Clones) ∧
    ∃ t, parse "CREATE TABLE orders (name VARCHAR(\"max size\"))" = .ok t ∧
      (Command.script [t.temporaryClone]).texts =
        ["CREATE TEMPORARY TABLE orders_temp (name VARCHAR(max size))"] ∧ ¬t.Clones := by
  have only {t : Table} {y : String} (hy : (Command.script [t.temporaryClone]).texts = [y])
      (h : t.Clones) : ∃ s, parse y = .ok (t.cloned s) := by
    obtain ⟨s, hs, hu⟩ := h
    rw [Sql.Script.texts, hs] at hy
    exact ⟨s, (List.cons.inj hy).1 ▸ hu⟩
  constructor
  · obtain ⟨t, ht, texts⟩ := Outcome.exists_ok_of_map_toOption
      (f := fun t : Table => (Command.script [t.temporaryClone]).texts)
      (x := parse "CREATE TABLE \"orders\" (id INT)")
      (b := ["CREATE TEMPORARY TABLE \"orders\"_temp (id INT)"]) (by decide +kernel)
    refine ⟨t, ht, texts, fun clones => ?_⟩
    obtain ⟨s, hs⟩ := only texts clones
    have refused : (parse "CREATE TEMPORARY TABLE \"orders\"_temp (id INT)").isOk = false := by
      decide +kernel
    rw [hs] at refused
    cases refused
  · obtain ⟨t, ht, parts⟩ := Outcome.exists_ok_of_map_toOption
      (f := fun t : Table => ((Command.script [t.temporaryClone]).texts, t.columns.map (·.type)))
      (x := parse "CREATE TABLE orders (name VARCHAR(\"max size\"))")
      (b := (["CREATE TEMPORARY TABLE orders_temp (name VARCHAR(max size))"], ["VARCHAR(max size)"]))
      (by decide +kernel)
    obtain ⟨texts, types⟩ := Prod.mk.inj parts
    refine ⟨t, ht, texts, fun clones => ?_⟩
    obtain ⟨s, hs⟩ := only texts clones
    have other : ((parse "CREATE TEMPORARY TABLE orders_temp (name VARCHAR(max size))").toOption.map
        fun u => u.columns.map (·.type)) = some ["VARCHAR(max,size)"] := by
      decide +kernel
    have same : (t.cloned s).columns.map (·.type) = ["VARCHAR(max size)"] := by
      rw [← types, cloned, List.map_map]
      rfl
    rw [hs] at other
    rw [Except.toOption, Option.map_some, same] at other
    exact absurd other (by decide)

end Table

end EtlFlow.Warehouse
