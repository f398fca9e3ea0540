import EtlFlow.Proofs.Sql.TableParts
/-!
# Every table definition is read

Behind the parts of a column come the constraints, the items with their look-ahead, the attributes
of the table and the statement as a whole.  Every tree is read as what it means
(`TableTree.ofTokens_tokens`), and what it means does not depend on the order of attributes, up to
the order of those that give a value of one kind (`TableTree.Reordered.definition_eq`).
-/

namespace EtlFlow.Sql.TableTree

open Grammar
open Text (sameAscii)
open Warehouse.Header (behindHead behindHead_eq_ok_iff atGuard keyword_cons ofTokens_def)

/-! ### Constraints -/

section body

attribute [local simp] ConstraintBody.tokens ConstraintBody.definition constraintBody atKeyword
  nameList_listed bind Except.bind Except.map

theorem constraintBody_tokens (b : ConstraintBody) {r : List Token} (h : Stops r) :
    constraintBody (b.tokens ++ r) = .ok (b.definition, r) := by
  cases b with
  | primaryKey p k ns => simp [p.isKeyword (by decide), k.isKeyword (by decide)]
  | unique u ns =>
    have key := u.isKeyword (by decide)
    obtain ⟨keyword, -⟩ := other_words key
    simp +decide [key, keyword]
  | foreignKey f k ns x t =>
    have key := f.isKeyword (by decide)
    obtain ⟨keyword, -⟩ := other_words key
    simp +decide [key, keyword, k.isKeyword (by decide), keyword_cons x.isKeyword,
      reference_tokens t h]

end body

theorem ConstraintBody.exists_lead (b : ConstraintBody) :
    ∃ t ts k, b.tokens = t :: ts ∧ t.isKeyword k = true ∧ k ≠ "CONSTRAINT" := by
  cases b with
  | primaryKey w _ _ | unique w _ | foreignKey w _ _ _ _ =>
    exact ⟨_, _, _, rfl, w.isKeyword (by decide), by decide⟩

theorem tableConstraint_tokens (c : Constraint) {r : List Token} (h : Stops r) :
    tableConstraint (c.tokens ++ r) = .ok (c.body.definition, r) := by
  have body := constraintBody_tokens c.body h
  rw [Constraint.tokens, List.append_assoc, tableConstraint]
  cases c.label with
  | none =>
    obtain ⟨t, ts, k, heq, ht, hk⟩ := c.body.exists_lead
    have no_label : atKeyword "CONSTRAINT" (c.body.tokens ++ r) = false := by
      rw [heq]
      exact (other_words ht).1 _ hk
    simp [no_label, body]
  | some label =>
    simp [atKeyword, label.1.isKeyword (by decide), name_token, bind, Except.bind, body]

theorem atConstraint_constraint (c : Constraint) (r : List Token) :
    atConstraint (c.tokens ++ r) = true := by
  rw [Constraint.tokens, List.append_assoc, atConstraint]
  cases c.label with
  | some label => simp [atWord, label.1.isWord]
  | none =>
    cases c.body with
    | primaryKey p k ns => simp [ConstraintBody.tokens, atWords, p.isWord, k.isWord]
    | unique u ns => simp [ConstraintBody.tokens, atWord, u.isWord, Names.listed, atParen]
    | foreignKey f k ns x t => simp [ConstraintBody.tokens, atWords, f.isWord, k.isWord]

theorem atConstraint_column (c : Column) (r : List Token) :
    atConstraint (c.tokens ++ r) = false := by
  have := c.isName
  simp only [constraintWords, List.forall_mem_cons] at this
  obtain ⟨constraint, primary, foreign, unique, -⟩ := this
  simp [Column.tokens, atConstraint, atWord, atWords, constraint, primary, foreign, unique]

/-! ### Items -/

/-- The item as it is read at `position`. -/
def Item.read (position : Nat) : Item → TableItem
  | column c => .column (c.definition position)
  | constraint c => .constraint c.body.definition

/-- The position behind an item. -/
def Item.next (position : Nat) : Item → Nat
  | column _ => position + 1
  | constraint _ => position

/-- The items as they are read from `position` on. -/
def readItems : (position : Nat) → List Item → List TableItem
  | _, [] => []
  | position, i :: is => i.read position :: readItems (i.next position) is

theorem tableItem_tokens (i : Item) (position : Nat) {r : List Token} (hr : atItemEnd r = true) :
    tableItem position (i.tokens ++ r) = .ok (i.read position, r) := by
  cases i with
  | column c =>
    simp [tableItem, Item.tokens, Item.read, atConstraint_column, column_tokens c position hr,
      Except.map]
  | constraint c =>
    simp [tableItem, Item.tokens, Item.read, atConstraint_constraint,
      tableConstraint_tokens c (stops_of_atItemEnd hr), Except.map]

theorem tableItems_last {position : Nat} {ts r : List Token} {i : TableItem}
    (h : tableItem position ts = .ok (i, r)) (hr : r.head? ≠ some .comma) :
    tableItems position ts = .ok ([i], r) := by
  rw [tableItems]
  split
  · simp_all
  · rename_i h'
    rw [h] at h'
    cases h'
    exact absurd rfl hr
  · simp_all

/-- The position behind an item that was read. -/
def nextPosition (position : Nat) : TableItem → Nat
  | .column _ => position + 1
  | .constraint _ => position

theorem nextPosition_read (position : Nat) (i : Item) :
    nextPosition position (i.read position) = i.next position := by
  cases i <;> rfl

theorem tableItems_comma {position : Nat} {ts r : List Token} {i : TableItem}
    (h : tableItem position ts = .ok (i, .comma :: r)) : tableItems position ts =
      (tableItems (nextPosition position i) r).map fun (is, r) => (i :: is, r) := by
  rw [tableItems]
  split
  · simp_all
  · rename_i h'
    rw [h] at h'
    cases h'
    cases i <;> rfl
  · simp_all

theorem tableItems_tokens (i : Item) (is : List Item) (position : Nat) (r : List Token) :
    tableItems position (itemTokens i is ++ .rparen :: r) =
      .ok (readItems position (i :: is), .rparen :: r) := by
  -- The position counts the columns read so far, so it is general, as is the item at hand.
  induction is generalizing i position with
  | nil =>
    rw [itemTokens, List.flatMap_nil, List.append_nil,
      tableItems_last (tableItem_tokens i position rfl) (by simp)]
    rfl
  | cons j is ih =>
    have behind : itemTokens i (j :: is) ++ .rparen :: r =
        i.tokens ++ .comma :: (itemTokens j is ++ .rparen :: r) := by
      simp [itemTokens]
    rw [behind, tableItems_comma (tableItem_tokens i position rfl), nextPosition_read, ih]
    rfl

/-- The columns are numbered in their order, whatever stands between them. -/
theorem columns_readItems (is : List Item) (position : Nat) :
    (readItems position is).filterMap (fun | .column c => some c | _ => none) =
      (is.filterMap Item.column?).mapIdx fun n c => c.definition (position + n) := by
  induction is generalizing position with
  | nil => rfl
  | cons i is ih =>
    cases i with
    | column c =>
      simp [readItems, Item.read, Item.next, Item.column?, ih, Nat.add_assoc, Nat.add_comm 1]
    | constraint c =>
      simp [readItems, Item.read, Item.next, Item.column?, List.filterMap_cons, ih]

theorem constraints_readItems (is : List Item) (position : Nat) :
    (readItems position is).filterMap (fun | .constraint c => some c | _ => none) =
      (is.filterMap Item.constraint?).map (·.body.definition) := by
  induction is generalizing position with
  | nil => rfl
  | cons i is ih =>
    cases i <;> simp [readItems, Item.read, Item.constraint?, List.filterMap_cons, ih]

theorem any_readItems (is : List Item) (position : Nat) :
    (readItems position is).any (fun | .column _ => true | _ => false) =
      is.any (·.column?.isSome) := by
  induction is generalizing position with
  | nil => rfl
  | cons i is ih => cases i <;> simp [readItems, Item.read, Item.column?, ih]

/-! ### Attributes of a table -/

/-- The attribute as it is read. -/
def TableOption.read : TableOption → TableAttribute
  | diststyle _ style _ => .diststyle style
  | distkey _ ns => .distkey ns.texts
  | sortkey _ _ ns => .sortkey ns.texts

theorem distkeys_read (os : List TableOption) :
    (os.map TableOption.read).flatMap (fun | .distkey ns => ns | _ => []) =
      (os.filterMap TableOption.distkey?).flatten := by
  induction os with
  | nil => rfl
  | cons o os ih =>
    cases o <;> simp [TableOption.read, TableOption.distkey?, List.filterMap_cons, ih]

theorem sortkeys_read (os : List TableOption) :
    (os.map TableOption.read).flatMap (fun | .sortkey ns => ns | _ => []) =
      (os.filterMap TableOption.sortkey?).flatten := by
  induction os with
  | nil => rfl
  | cons o os ih =>
    cases o <;> simp [TableOption.read, TableOption.sortkey?, List.filterMap_cons, ih]

theorem styles_read (os : List TableOption) :
    (os.map TableOption.read).filterMap (fun | .diststyle style => some style | _ => none) =
      os.filterMap TableOption.style? := by
  rw [List.filterMap_map]
  congr 1
  funext o
  cases o <;> rfl

theorem name_word (style : DistStyle) (w : Word style.text) (r : List Token) :
    Grammar.name (w.token :: r) = .ok (w.value, r) ∧ DistStyle.ofName? w.value = some style := by
  refine ⟨rfl, ?_⟩
  rw [DistStyle.ofName?, (capitals_of_sameAscii w.same (by cases style <;> decide)).2]
  cases style <;> rfl

section options

attribute [local simp] TableOption.tokens TableOption.read SortKind.tokens tableAttribute? atWord
  atWords nameList_listed bind Except.bind Except.map

theorem tableAttribute?_tokens (o : TableOption) (r : List Token) :
    tableAttribute? (o.tokens ++ r) = some (.ok (o.read, r)) := by
  cases o with
  | diststyle w style n =>
    obtain ⟨hn, hs⟩ := name_word style n r
    simp [w.isWord, hn, hs]
  | distkey w ns =>
    obtain ⟨-, word⟩ := other_words (w.isKeyword (by decide))
    simp +decide [w.isWord, word]
  | sortkey kind w ns =>
    cases kind with
    | plain =>
      obtain ⟨-, word⟩ := other_words (w.isKeyword (by decide))
      simp +decide [w.isWord, word]
    | compound x | interleaved x =>
      obtain ⟨-, word⟩ := other_words (x.isKeyword (by decide))
      simp +decide [w.isWord, x.isWord, word]

end options

theorem tableAttributes_none {ts : List Token} (h : tableAttribute? ts = none) :
    tableAttributes ts = .ok ([], ts) := by
  rw [tableAttributes]
  split
  · rfl
  · split <;> simp_all

theorem tableAttributes_some {ts r : List Token} {a : TableAttribute}
    (h : tableAttribute? ts = some (.ok (a, r))) :
    tableAttributes ts = (tableAttributes r).map fun (as, r) => (a :: as, r) := by
  have ne : ts ≠ [] := by
    rintro rfl
    cases h
  rw [tableAttributes, dif_neg ne]
  split <;> simp_all

theorem tableAttributes_tokens (os : List TableOption) (n : Nat) :
    tableAttributes (os.flatMap TableOption.tokens ++ List.replicate n .semicolon) =
      .ok (os.map TableOption.read, List.replicate n .semicolon) := by
  induction os with
  | nil =>
    have stop : tableAttribute? (List.replicate n .semicolon) = none := by cases n <;> rfl
    exact tableAttributes_none stop
  | cons o os ih =>
    rw [List.flatMap_cons, List.append_assoc, tableAttributes_some (tableAttribute?_tokens o _), ih]
    rfl

theorem atEnd_semicolons (n : Nat) : atEnd (List.replicate n .semicolon) = .ok () := by
  simp [atEnd]

/-! ### The statement -/

/-- The head of a statement is read, and the rest of it behind. -/
theorem ofTokens_head (s : TableTree) {us : List Token} (h : atGuard us = false) :
    TableDef.ofTokens (s.create.token :: (s.temporary.tokens ++ s.table.token ::
      (s.guard.tokens ++ us))) = behindHead s.temporary.isTemporary s.guard.isGuarded us := by
  have guard : atGuard (s.guard.tokens ++ us) = s.guard.isGuarded ∧
      (if s.guard.isGuarded then (s.guard.tokens ++ us).drop 3 else s.guard.tokens ++ us) = us := by
    cases s.guard with
    | no => exact ⟨h, rfl⟩
    | ifNotExists i n e =>
      simp [Guard.tokens, Guard.isGuarded, atGuard, atKeyword, i.isKeyword, n.isKeyword,
        e.isKeyword]
  rw [ofTokens_def, keyword_cons s.create.isKeyword]
  cases s.temporary with
  | no =>
    obtain ⟨keyword, -⟩ := other_words s.table.isKeyword
    simp +decide [Temporary.tokens, Temporary.isTemporary, atKeyword, keyword, bind, Except.bind,
      keyword_cons s.table.isKeyword, guard]
  | temp k | temporary k =>
    simp [Temporary.tokens, Temporary.isTemporary, atKeyword, k.isKeyword, bind, Except.bind,
      keyword_cons s.table.isKeyword, guard]

theorem assemble_read (s : TableTree) :
    TableDef.assemble s.name.dotted s.temporary.isTemporary s.guard.isGuarded
      (readItems 0 s.items) (s.options.map TableOption.read) = s.definition := by
  rw [TableDef.assemble, definition, columns, TableDef.mk.injEq]
  refine ⟨rfl, rfl, rfl, ?_, constraints_readItems .., ?_, ?_, ?_⟩
  · exact (columns_readItems s.items 0).trans (by simp)
  · exact distkeys_read s.options
  · exact sortkeys_read s.options
  · exact congrArg List.getLast? (styles_read s.options)

/-- Every statement is read as what it defines. -/
theorem ofTokens_tokens (s : TableTree) : TableDef.ofTokens s.tokens = .ok s.definition := by
  have name : relationName (s.name.tokens .period) = .ok (s.name.dotted, []) := by
    have no_period : ([] : List Token).head? ≠ some .period := by simp
    simpa using relationName_tokens s.name no_period
  rw [TableTree.tokens, ofTokens_head s (Warehouse.Header.atGuard_name name rfl),
    behindHead_eq_ok_iff]
  refine ⟨_, _, _, _, relationName_tokens s.name (by simp), ⟨_, _, rfl,
    tableItems_tokens s.first s.more 0 _, rfl, (any_readItems _ 0).trans s.hasColumn,
    tableAttributes_tokens _ _, atEnd_semicolons _⟩, assemble_read s⟩

/-! ### Another order -/

theorem filterMap_eq_of_perm {α β : Type} {as bs : List α} {f : α → Option β} (h : as.Perm bs)
    (once : (as.filterMap f).length ≤ 1) : as.filterMap f = bs.filterMap f := by
  have perm := h.filterMap f
  cases hf : as.filterMap f with
  | nil =>
    rw [hf] at perm
    exact perm.nil_eq
  | cons b rest =>
    rw [hf, List.length_cons] at once
    have none_left : rest = [] := List.length_eq_zero_iff.mp (by omega)
    rw [hf, none_left] at perm
    rw [none_left]
    exact List.singleton_perm.mp perm

/-- Attributes that give one value of each kind at most may stand in any order. -/
theorem Attributes.Reordered.of_perm {as bs : List ColumnAttribute} (h : as.Perm bs)
    (encoding : (Attributes.encodings as).length ≤ 1)
    (reference : (Attributes.references as).length ≤ 1)
    (default_ : (Attributes.defaults as).length ≤ 1)
    (identity : (Attributes.identities as).length ≤ 1) :
    Attributes.Reordered as bs :=
  ⟨h, filterMap_eq_of_perm h encoding, filterMap_eq_of_perm h reference,
    filterMap_eq_of_perm h default_, filterMap_eq_of_perm h identity⟩

theorem TableOption.Reordered.of_perm {as bs : List TableOption} (h : as.Perm bs)
    (style : (as.filterMap style?).length ≤ 1) (distkey : (as.filterMap distkey?).length ≤ 1)
    (sortkey : (as.filterMap sortkey?).length ≤ 1) : TableOption.Reordered as bs :=
  ⟨filterMap_eq_of_perm h style, filterMap_eq_of_perm h distkey, filterMap_eq_of_perm h sortkey⟩

theorem Column.definition_congr {c d : Column} (name : c.name = d.name) (type : c.type = d.type)
    (h : Attributes.Reordered c.meanings d.meanings) (position : Nat) :
    c.definition position = d.definition position := by
  have key : Attributes.isKey c.meanings = Attributes.isKey d.meanings := h.perm.any_eq
  have distkey : Attributes.isDistkey c.meanings = Attributes.isDistkey d.meanings := h.perm.any_eq
  have sortkey : Attributes.isSortkey c.meanings = Attributes.isSortkey d.meanings := h.perm.any_eq
  have null : Attributes.isNull c.meanings = Attributes.isNull d.meanings := h.perm.any_eq
  have notNull : Attributes.isNotNull c.meanings = Attributes.isNotNull d.meanings := h.perm.any_eq
  rw [definition, definition, name, type, h.encodings, h.references, h.defaults, h.identities, key,
    distkey, sortkey, null, notNull]

theorem Item.Reordered.read_eq {i j : Item} (h : Item.Reordered i j) (position : Nat) :
    i.read position = j.read position ∧ i.next position = j.next position := by
  cases h with
  | column name type attributes =>
    exact ⟨congrArg TableItem.column (Column.definition_congr name type attributes position), rfl⟩
  | constraint c => exact ⟨rfl, rfl⟩

theorem readItems_eq {is js : List Item} (h : List.Forall₂ Item.Reordered is js) (position : Nat) :
    readItems position is = readItems position js := by
  induction h generalizing position with
  | nil => rfl
  | cons first _ ih =>
    obtain ⟨read, next⟩ := first.read_eq position
    rw [readItems, readItems, read, next, ih]

/-- What a statement defines does not depend on the order of its attributes. -/
theorem Reordered.definition_eq {s t : TableTree} (h : s.Reordered t) :
    s.definition = t.definition := by
  have items := readItems_eq h.items 0
  rw [definition, definition, TableDef.mk.injEq]
  refine ⟨by rw [h.name], h.temporary, h.guard, ?_, ?_, by rw [h.options.distkeys],
    by rw [h.options.sortkeys], by rw [h.options.styles]⟩
  · have columns (s : TableTree) := columns_readItems s.items 0
    simp only [Nat.zero_add] at columns
    rw [TableTree.columns, TableTree.columns, ← columns, ← columns, items]
  · rw [← constraints_readItems s.items 0, ← constraints_readItems t.items 0, items]

/-! ### Every statement in every order -/

/-- Every CREATE TABLE statement is read as what it defines, as tokens and as a text with these
tokens, and it defines the same with its attributes in any other order that keeps the order of the
values of one kind. -/
theorem parse_tokens (s : TableTree) :
    TableDef.ofTokens s.tokens = .ok s.definition ∧
      (∀ sql, Token.scan sql = .ok s.tokens → TableDef.parse sql = .ok s.definition) ∧
      ∀ t : TableTree, s.Reordered t → TableDef.ofTokens t.tokens = .ok s.definition := by
  refine ⟨ofTokens_tokens s, fun sql scan => ?_, fun t reordered => ?_⟩
  · rw [TableDef.parse, definitionTokens, scan]
    exact ofTokens_tokens s
  · rw [reordered.definition_eq]
    exact ofTokens_tokens t

/-- A table with one column and its key, and with the attributes of both. -/
def clicks (as : List Attribute) (agrees : Attributes.Agree (as.map (·.meaning)))
    (os : List TableOption) : TableTree where
  create := (Word.self "CREATE").keyword (by decide)
  temporary := .no
  table := (Word.self "TABLE").keyword (by decide)
  guard := .no
  name := ⟨⟨"web", none⟩, [⟨"clicks", none⟩]⟩
  first := .column {
    name := ⟨"at", none⟩
    isName := by decide +kernel
    type := ⟨⟨"TIMESTAMP", none⟩, by decide +kernel, ["WITH", "TIME", "ZONE"],
      .inr ⟨["WITH", "TIME", "ZONE"], by decide +kernel, by simp [sameAscii]⟩, none⟩
    attributes := as
    agrees := agrees }
  more := [.constraint ⟨none, .primaryKey (.self "PRIMARY") (.self "KEY") ⟨⟨"at", none⟩, []⟩⟩]
  hasColumn := rfl
  options := os
  semicolons := 1

/-- Three attributes of the column of `clicks`. -/
def clickAttributes : List Attribute := [
  .notNull ((Word.self "NOT").keyword (by decide)) ((Word.self "NULL").keyword (by decide)),
  .default ((Word.self "DEFAULT").keyword (by decide)) ⟨.word "now" none, by decide, some .nil⟩,
  .distkey (.self "DISTKEY")]

/-- Two attributes of the table `clicks`. -/
def clickOptions : List TableOption := [
  .diststyle (.self "DISTSTYLE") .key (.self "KEY"),
  .sortkey .plain (.self "SORTKEY") ⟨⟨"at", none⟩, []⟩]

/-- The text of `clicks` with its attributes in their order. -/
def clicksText : String :=
  "CREATE TABLE web.clicks (at TIMESTAMP WITH TIME ZONE NOT NULL DEFAULT now() DISTKEY, " ++
    "PRIMARY KEY (at)) DISTSTYLE KEY SORTKEY (at);"

theorem parse_tokens_clicks :
    let s := clicks clickAttributes (.inl rfl) clickOptions
    let t := clicks clickAttributes.reverse (.inl rfl) clickOptions.reverse
    Token.scan clicksText = .ok s.tokens ∧ s.Reordered t ∧
      TableDef.parse clicksText = .ok s.definition ∧
      TableDef.ofTokens t.tokens = .ok s.definition ∧
      s.definition = {
        fullName := "web.clicks"
        temporary := false
        ifNotExists := false
        columns := [{
          name := "at"
          type := "TIMESTAMP WITH TIME ZONE"
          default := some "now()"
          isDistkey := true
          nullability := .notNull
          position := 0 }]
        constraints := [.primaryKey ["at"]]
        distkey := []
        sortkey := ["at"]
        diststyle := some .key } := by
  intro s t
  have scan : Token.scan clicksText = .ok s.tokens := by decide +kernel
  have column : Attributes.Reordered (clickAttributes.map (·.meaning))
      (clickAttributes.reverse.map (·.meaning)) :=
    .of_perm (clickAttributes.reverse_perm.symm.map _) (by decide) (by decide) (by decide)
      (by decide)
  have options : TableOption.Reordered clickOptions clickOptions.reverse :=
    .of_perm clickOptions.reverse_perm.symm (by decide) (by decide) (by decide)
  have reordered : s.Reordered t :=
    ⟨rfl, rfl, rfl, .cons (.column rfl rfl column) (.cons (.constraint _) .nil), options⟩
  obtain ⟨-, parses, any_order⟩ := parse_tokens s
  exact ⟨scan, reordered, parses _ scan, any_order t reordered, by decide +kernel⟩

end EtlFlow.Sql.TableTree
