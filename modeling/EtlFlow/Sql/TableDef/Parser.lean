import EtlFlow.Sql.Grammar
import EtlFlow.Sql.TableDef
/-!
# Reading table definitions

`TableDef.parse` reads a CREATE TABLE statement.  Columns and table constraints may come in any order
inside the parentheses, the attributes of a column and of the table in any order behind their
openings.  Each item and each attribute takes at least one token, so the loops over them end.
-/

namespace EtlFlow.Sql

namespace Grammar

/-! ### Types -/

/-- The types a column may have. -/
def knownTypes : List String := [
  "SMALLINT", "INT2", "INT", "INTEGER", "INT4", "BIGINT", "INT8", "DECIMAL", "NUMERIC", "REAL",
  "FLOAT4", "DOUBLE", "FLOAT8", "FLOAT", "BOOLEAN", "BOOL", "CHAR", "CHARACTER", "NCHAR",
  "BPCHAR", "VARCHAR", "TEXT", "NVARCHAR", "DATE", "TIMESTAMP", "TIMESTAMPTZ", "TIME", "TIMETZ"]

/-- The words that may follow a type as a part of it. -/
def typeTails (type : String) : List (List String) :=
  match Text.upperAscii type with
  | "DOUBLE" => [["PRECISION"]]
  | "CHARACTER" => [["VARYING"]]
  | "TIMESTAMP" | "TIME" => [["WITH", "TIME", "ZONE"], ["WITHOUT", "TIME", "ZONE"]]
  | _ => []

/-- The next tokens are the bare words `ws`. -/
def atWords : List String → List Token → Bool
  | [], _ => true
  | _ :: _, [] => false
  | w :: ws, t :: ts => t.isWord w && atWords ws ts

/-- The values of the words among the tokens. -/
def wordValues (ts : List Token) : List String :=
  ts.filterMap fun
    | .word v _ => some v
    | _ => none

/-- Numbers and words up to the closing parenthesis; commas between them may be missing. -/
def argumentsInside : List Token → Parsed (List String)
  | .number d _ :: ts => (argumentsInside ts).map fun (as, r) => (d :: as, r)
  | .word v _ :: ts => (argumentsInside ts).map fun (as, r) => (v :: as, r)
  | .comma :: ts => argumentsInside ts
  | .rparen :: ts => .ok ([], ts)
  | ts => .error (.typeArgument (nextText ts))

/-- Arguments as they are written: in parentheses and without blanks. -/
def argumentText (arguments : List String) : String := "(" ++ ",".intercalate arguments ++ ")"

/-- Arguments in parentheses. -/
def typeArguments : List Token → Parsed String
  | .lparen :: ts => (argumentsInside ts).map fun (as, r) => (argumentText as, r)
  | ts => .error (.grammar (.expected "(" (nextText ts)))

/-- The type of the column `column`. -/
def typeName (column : String) : List Token → Parsed String
  | .word v q :: ts =>
    if knownTypes.contains (Text.upperAscii v) then
      let tail := ((typeTails v).find? (atWords · ts)).getD []
      let type := " ".intercalate (v :: wordValues (ts.take tail.length))
      let ts := ts.drop tail.length
      if atParen ts then (typeArguments ts).map fun (as, r) => (type ++ as, r) else .ok (type, ts)
    else .error (.unknownType (Token.text (.word v q)) column)
  | ts => .error (.unknownType (nextText ts) column)

/-! ### Default values and references -/

/-- The tokens up to the parenthesis that brings the depth to zero, written without blanks. -/
def balancedText : (depth : Nat) → List Token → Parsed String
  | _, [] => .error .openDefault
  | depth, t :: ts =>
    let depth := if t = .lparen then depth + 1 else if t = .rparen then depth - 1 else depth
    if depth = 0 then .ok (t.text, ts)
    else (balancedText depth ts).map fun (v, r) => (t.text ++ v, r)

/-- A default value: one token and the parenthesised group behind it, if any. -/
def defaultValue : List Token → Parsed String
  | [] | .comma :: _ | .rparen :: _ => .error .noDefaultValue
  | t :: ts =>
    if atParen ts then (balancedText 0 ts).map fun (v, r) => (t.text ++ v, r) else .ok (t.text, ts)

/-- What a foreign key points to. -/
def reference (ts : List Token) : Except Error (Reference × List Token) := do
  let (table, ts) ← relationName ts
  if atParen ts then (nameList ts).map fun (columns, r) => (⟨table, columns⟩, r)
  else .ok (⟨table, []⟩, ts)

theorem rest_argumentsInside (ts : List Token) : Rest (ts.length - 1) (argumentsInside ts) := by
  fun_induction argumentsInside ts with
  | case1 d long ts ih => exact rest_map (rest_mono ih (by simp))
  | case2 v q ts ih => exact rest_map (rest_mono ih (by simp))
  | case3 ts ih => exact rest_mono ih (by simp)
  | case4 ts => exact rest_ok (r := ts) (by simp)
  | case5 => exact rest_error

theorem rest_typeArguments (ts : List Token) : Rest (ts.length - 1) (typeArguments ts) := by
  unfold typeArguments
  split
  · exact rest_map (rest_mono (rest_argumentsInside _) (by simp))
  · exact rest_error

theorem rest_typeName (column : String) (ts : List Token) :
    Rest (ts.length - 1) (typeName column ts) := by
  unfold typeName
  split
  · refine rest_ite (rest_ite (rest_map (rest_mono (rest_typeArguments _) ?_)) (rest_ok ?_))
      rest_error
    all_goals simp only [List.length_drop, List.length_cons]; omega
  · exact rest_error

theorem rest_balancedText (depth : Nat) (ts : List Token) :
    Rest (ts.length - 1) (balancedText depth ts) := by
  fun_induction balancedText depth ts with
  | case1 => exact rest_error
  | case2 => exact rest_ok (by simp)
  | case3 d t ts d' _ ih => exact rest_map (rest_mono ih (by simp))

theorem rest_defaultValue (ts : List Token) : Rest (ts.length - 1) (defaultValue ts) := by
  unfold defaultValue
  split
  · exact rest_error
  · exact rest_error
  · exact rest_error
  · exact rest_ite (rest_map (rest_mono (rest_balancedText 0 _) (by simp)))
      (rest_ok (by simp))

theorem rest_reference (ts : List Token) : Rest (ts.length - 1) (reference ts) := by
  refine rest_bind (rest_relationName ts) fun table r hr => ?_
  exact rest_ite (rest_map (rest_mono (rest_nameList r) (by omega))) (rest_ok hr)

/-! ### Columns -/

/-- An attribute behind the type of a column. -/
inductive ColumnAttribute where
  | notNull
  | null
  | key
  | distkey
  | sortkey
  | encode (encoding : String)
  | references (target : Reference)
  | default (value : String)
  | identity (arguments : String)

/-- The next attribute of the column `column`. -/
def columnAttribute (column : String) (ts : List Token) : Parsed ColumnAttribute :=
  if atKeyword "NOT" ts ∧ atKeyword "NULL" ts.tail then .ok (.notNull, ts.drop 2)
  else if atKeyword "NULL" ts then .ok (.null, ts.drop 1)
  else if atKeyword "PRIMARY" ts ∧ atKeyword "KEY" ts.tail then .ok (.key, ts.drop 2)
  else if atKeyword "UNIQUE" ts then .ok (.key, ts.drop 1)
  else if atWord "DISTKEY" ts then .ok (.distkey, ts.drop 1)
  else if atWord "SORTKEY" ts then .ok (.sortkey, ts.drop 1)
  else if atWord "ENCODE" ts then (name (ts.drop 1)).map fun (n, r) => (.encode n, r)
  else if atKeyword "REFERENCES" ts then (reference (ts.drop 1)).map fun (x, r) => (.references x, r)
  else if atKeyword "DEFAULT" ts then (defaultValue (ts.drop 1)).map fun (v, r) => (.default v, r)
  else if atWord "IDENTITY" ts then (typeArguments (ts.drop 1)).map fun (as, r) => (.identity as, r)
  else .error (.columnAttribute (nextText ts) column)

end Grammar

/-- The style that a word names. -/
def DistStyle.ofName? (s : String) : Option DistStyle :=
  [DistStyle.even, .all, .key].find? fun style => style.text == Text.upperAscii s

/-- The column with one more word about NULL, which must not go against an earlier one. -/
def ColumnDef.withNullability (c : ColumnDef) (n : Nullability) : Except Error ColumnDef :=
  if c.nullability ≠ .unspecified ∧ c.nullability ≠ n then .error (.nullAndNotNull c.name)
  else .ok { c with nullability := n }

/-- The column with one more attribute. -/
def ColumnDef.withAttribute (c : ColumnDef) : Grammar.ColumnAttribute → Except Error ColumnDef
  | .notNull => c.withNullability .notNull
  | .null => c.withNullability .null
  | .key => .ok { c with isPrimary := true }
  | .distkey => .ok { c with isDistkey := true }
  | .sortkey => .ok { c with isSortkey := true }
  | .encode n => .ok { c with encoding := some n }
  | .references x => .ok { c with reference := some x }
  | .default v => .ok { c with default := some v }
  | .identity as => .ok { c with identity := some as }

namespace Grammar

theorem rest_columnAttribute {column : String} {ts : List Token} (h : ts ≠ []) :
    Rest (ts.length - 1) (columnAttribute column ts) := by
  have := List.length_pos_iff.mpr h
  have drop {n : Nat} (hn : 1 ≤ n) : (ts.drop n).length ≤ ts.length - 1 := by
    simp only [List.length_drop]; omega
  have behind {α : Type} {f : List Token → Parsed α}
      (hf : ∀ ts, Rest (ts.length - 1) (f ts)) : Rest (ts.length - 1) (f (ts.drop 1)) :=
    rest_mono (hf _) (by have := drop (n := 1) (by omega); omega)
  unfold columnAttribute
  refine rest_ite (rest_ok (drop (by omega))) ?_
  refine rest_ite (rest_ok (drop (by omega))) ?_
  refine rest_ite (rest_ok (drop (by omega))) ?_
  refine rest_ite (rest_ok (drop (by omega))) ?_
  refine rest_ite (rest_ok (drop (by omega))) ?_
  refine rest_ite (rest_ok (drop (by omega))) ?_
  refine rest_ite (rest_map (behind rest_name)) ?_
  refine rest_ite (rest_map (behind rest_reference)) ?_
  refine rest_ite (rest_map (behind rest_defaultValue)) ?_
  exact rest_ite (rest_map (behind rest_typeArguments)) rest_error

/-- The item ends at a comma or at a closing parenthesis. -/
def atItemEnd : List Token → Bool
  | .comma :: _ | .rparen :: _ => true
  | _ => false

/-- The column with the attributes up to the end of its item. -/
def columnAttributes (c : ColumnDef) (ts : List Token) : Parsed ColumnDef :=
  if atItemEnd ts then .ok (c, ts)
  else if _hts : ts = [] then .error (.columnAttribute (nextText ts) c.name)
  else
    match _h : columnAttribute c.name ts with
    | .error e => .error e
    | .ok (a, r) =>
      match c.withAttribute a with
      | .error e => .error e
      | .ok c => columnAttributes c r
termination_by ts.length
decreasing_by
  have := rest_columnAttribute _hts _ _ _h
  have := List.length_pos_iff.mpr _hts
  omega

/-- The column at `position`.  A key column is never NULL, whatever else it says. -/
def column (position : Nat) (ts : List Token) : Except Error (ColumnDef × List Token) := do
  let (n, ts) ← name ts
  let (type, ts) ← typeName n ts
  let (c, ts) ← columnAttributes { name := n, type := type, position := position } ts
  .ok (if c.isPrimary then { c with nullability := .notNull } else c, ts)

theorem rest_columnAttributes (c : ColumnDef) (ts : List Token) :
    Rest ts.length (columnAttributes c ts) := by
  fun_induction columnAttributes c ts with
  | case1 => exact rest_ok (Nat.le_refl _)
  | case2 => exact rest_error
  | case3 => exact rest_error
  | case4 => exact rest_error
  | case5 c ts _ hts a r h c' _ ih =>
    exact rest_mono ih (by have := rest_columnAttribute hts _ _ h; omega)

theorem rest_column (position : Nat) (ts : List Token) :
    Rest (ts.length - 1) (column position ts) := by
  refine rest_bind (rest_name ts) fun n r hr => ?_
  refine rest_bind (rest_typeName n r) fun type r' hr' => ?_
  refine rest_bind (rest_columnAttributes _ r') fun c r'' hr'' => ?_
  exact rest_ok (by omega)

/-! ### Constraints and items -/

/-- The next item is a table constraint. -/
def atConstraint (ts : List Token) : Bool :=
  atWord "CONSTRAINT" ts || atWords ["PRIMARY", "KEY"] ts || atWords ["FOREIGN", "KEY"] ts ||
    (atWord "UNIQUE" ts && atParen ts.tail)

/-- A table constraint without its name. -/
def constraintBody (ts : List Token) : Except Error (TableConstraint × List Token) :=
  if atKeyword "PRIMARY" ts ∧ atKeyword "KEY" ts.tail then
    (nameList (ts.drop 2)).map fun (columns, r) => (.primaryKey columns, r)
  else if atKeyword "UNIQUE" ts then
    (nameList (ts.drop 1)).map fun (columns, r) => (.primaryKey columns, r)
  else if atKeyword "FOREIGN" ts ∧ atKeyword "KEY" ts.tail then do
    let (columns, ts) ← nameList (ts.drop 2)
    let ts ← keyword "REFERENCES" ts
    (reference ts).map fun (x, r) => (.foreignKey columns x, r)
  else .error (.tableConstraint (nextText ts))

/-- A table constraint; its name, where it has one, is dropped. -/
def tableConstraint (ts : List Token) : Except Error (TableConstraint × List Token) :=
  if atKeyword "CONSTRAINT" ts then do
    let (_, ts) ← name (ts.drop 1)
    constraintBody ts
  else constraintBody ts

/-- One item between the parentheses of a definition. -/
inductive TableItem where
  | column (c : ColumnDef)
  | constraint (c : TableConstraint)

/-- The next item; a column takes the position `position`. -/
def tableItem (position : Nat) (ts : List Token) : Parsed TableItem :=
  if atConstraint ts then (tableConstraint ts).map fun (c, r) => (.constraint c, r)
  else (column position ts).map fun (c, r) => (.column c, r)

theorem rest_constraintBody (ts : List Token) :
    Rest (ts.length - 1) (constraintBody ts) := by
  have behind {n : Nat} : Rest (ts.length - 1) (nameList (ts.drop n)) :=
    rest_mono (rest_nameList _) (by simp only [List.length_drop]; omega)
  refine rest_ite (rest_map behind) (rest_ite (rest_map behind) (rest_ite ?_ rest_error))
  refine rest_bind behind fun columns r hr => ?_
  unfold keyword
  by_cases hk : atKeyword "REFERENCES" r
  · simp only [hk, if_true]
    refine rest_map (rest_mono (rest_reference r.tail) ?_)
    have := List.length_tail (l := r)
    omega
  · simp only [hk]
    exact rest_error

theorem rest_tableConstraint (ts : List Token) : Rest (ts.length - 1) (tableConstraint ts) := by
  refine rest_ite (rest_bind (rest_name _) fun n r hr => ?_) (rest_constraintBody ts)
  exact rest_mono (rest_constraintBody r) (by simp only [List.length_drop] at hr; omega)

theorem rest_tableItem (position : Nat) (ts : List Token) :
    Rest (ts.length - 1) (tableItem position ts) :=
  rest_ite (rest_map (rest_tableConstraint ts)) (rest_map (rest_column position ts))

/-- The items from `position` on, with commas between them. -/
def tableItems (position : Nat) (ts : List Token) : Parsed (List TableItem) :=
  match _h : tableItem position ts with
  | .error e => .error e
  | .ok (i, .comma :: r) =>
    let next := match i with
      | .column _ => position + 1
      | .constraint _ => position
    (tableItems next r).map fun (is, r) => (i :: is, r)
  | .ok (i, r) => .ok ([i], r)
termination_by ts.length
decreasing_by
  have := rest_tableItem _ _ _ _ _h
  simp only [List.length_cons] at this
  omega

/-! ### Table attributes -/

/-- An attribute behind the items of a table. -/
inductive TableAttribute where
  | diststyle (style : DistStyle)
  | distkey (columns : List String)
  | sortkey (columns : List String)

/-- The next attribute of the table, if one is next. -/
def tableAttribute? (ts : List Token) : Option (Except Error (TableAttribute × List Token)) :=
  if atWord "DISTSTYLE" ts then
    some do
      let (n, ts) ← name (ts.drop 1)
      match DistStyle.ofName? n with
      | some style => .ok (.diststyle style, ts)
      | none => .error (.distStyle n)
  else if atWord "DISTKEY" ts then
    some ((nameList (ts.drop 1)).map fun (columns, r) => (.distkey columns, r))
  else if atWords ["COMPOUND", "SORTKEY"] ts ∨ atWords ["INTERLEAVED", "SORTKEY"] ts then
    some ((nameList (ts.drop 2)).map fun (columns, r) => (.sortkey columns, r))
  else if atWord "SORTKEY" ts then
    some ((nameList (ts.drop 1)).map fun (columns, r) => (.sortkey columns, r))
  else none

theorem rest_tableAttribute? {ts : List Token} {x : Parsed TableAttribute}
    (h : tableAttribute? ts = some x) : Rest (ts.length - 2) x := by
  have behind {n : Nat} (hn : 1 ≤ n) : Rest (ts.length - 2) (nameList (ts.drop n)) :=
    rest_mono (rest_nameList _) (by simp only [List.length_drop]; omega)
  unfold tableAttribute? at h
  split at h
  · cases h
    refine rest_bind (rest_name _) fun n r hr => ?_
    simp only [List.length_drop] at hr
    dsimp only
    split
    · exact rest_ok (by omega)
    · exact rest_error
  split at h
  · cases h; exact rest_map (behind (by omega))
  split at h
  · cases h; exact rest_map (behind (by omega))
  split at h
  · cases h; exact rest_map (behind (by omega))
  · cases h

/-- The attributes up to the first token that starts none. -/
def tableAttributes (ts : List Token) : Parsed (List TableAttribute) :=
  if _hts : ts = [] then .ok ([], ts)
  else
    match _h : tableAttribute? ts with
    | none => .ok ([], ts)
    | some (.error e) => .error e
    | some (.ok (a, r)) => (tableAttributes r).map fun (as, r) => (a :: as, r)
termination_by ts.length
decreasing_by
  have := rest_tableAttribute? _h _ _ rfl
  have := List.length_pos_iff.mpr _hts
  omega

/-! ### The statement -/

end Grammar

namespace TableDef

open Grammar

/-- The definition that items and attributes make up; the last style given counts. -/
def assemble (fullName : String) (temporary ifNotExists : Bool) (items : List TableItem)
    (attributes : List TableAttribute) : TableDef where
  fullName := fullName
  temporary := temporary
  ifNotExists := ifNotExists
  columns := items.filterMap fun | .column c => some c | _ => none
  constraints := items.filterMap fun | .constraint c => some c | _ => none
  distkey := attributes.flatMap fun | .distkey columns => columns | _ => []
  sortkey := attributes.flatMap fun | .sortkey columns => columns | _ => []
  diststyle := (attributes.filterMap fun | .diststyle style => some style | _ => none).getLast?

/-- The definition that tokens spell. -/
def ofTokens (ts : List Token) : Except Error TableDef := do
  let ts ← keyword "CREATE" ts
  let temporary := atKeyword "TEMPORARY" ts || atKeyword "TEMP" ts
  let ts ← keyword "TABLE" (if temporary then ts.tail else ts)
  let ifNotExists :=
    atKeyword "IF" ts && atKeyword "NOT" (ts.drop 1) && atKeyword "EXISTS" (ts.drop 2)
  let (fullName, ts) ← relationName (if ifNotExists then ts.drop 3 else ts)
  if !atParen ts then throw (.grammar (.expected "(" (nextText ts)))
  let (items, ts) ← tableItems 0 ts.tail
  if ts.head? ≠ some .rparen then throw (.grammar (.expected ")" (nextText ts)))
  if !items.any (fun | .column _ => true | _ => false) then throw (.noColumns fullName)
  let (attributes, ts) ← tableAttributes ts.tail
  atEnd ts
  return assemble fullName temporary ifNotExists items attributes

/-- The definition that a statement gives. -/
def parse (sql : String) : Except Error TableDef := do
  ofTokens (← definitionTokens sql)

end TableDef

end EtlFlow.Sql
