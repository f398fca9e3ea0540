import EtlFlow.Proofs.Warehouse.Guard
/-!
# The items of a table definition

A reader of tokens leaves the end of the tokens it was given (`Behind`), so the columns of a
definition are read from one place of the text after the other.  `Declares` says so for a list of
columns: each is read where it starts, behind the one before it, and takes the next number
(`Declares.positions`), whatever stands between two columns.  The columns of every accepted
definition are declared by its tokens (`declares_of_parse`).
-/

namespace EtlFlow.Sql.Grammar

open Outcome (bind_eq_ok_iff map_eq_ok_iff)
open Warehouse.Header (keyword_eq_ok ofTokens_def behindHead_eq_ok_iff parse_eq_ok_iff)

/-! ### What a reader leaves -/

/-- A success leaves an end of `ts`. -/
def Behind {α : Type} (ts : List Token) (x : Parsed α) : Prop :=
  ∀ a r, x = .ok (a, r) → r <:+ ts

section behind

variable {α β : Type} {ts us : List Token}

theorem behind_ok {a : α} (h : us <:+ ts) : Behind ts (.ok (a, us)) := by
  intro a' r h'
  cases h'
  exact h

theorem behind_error {e : Error} : Behind ts (.error e : Parsed α) := by
  intro a r h
  cases h

theorem behind_ite {p : Prop} [Decidable p] {x y : Parsed α} (hx : Behind ts x)
    (hy : Behind ts y) : Behind ts (if p then x else y) := by
  split
  · exact hx
  · exact hy

theorem Behind.bind {x : Parsed α} {f : α × List Token → Parsed β} (hx : Behind ts x)
    (hf : ∀ a r, Behind r (f (a, r))) : Behind ts (Bind.bind (m := Except Error) x f) := by
  intro b r h
  obtain ⟨⟨a, _⟩, ha, h⟩ := bind_eq_ok_iff.mp h
  exact (hf a _ b r h).trans (hx a _ ha)

theorem Behind.map {x : Parsed α} {f : α → β} (hx : Behind ts x) :
    Behind ts (x.map fun (a, r) => (f a, r)) := by
  intro b r h
  obtain ⟨⟨a, _⟩, ha, h⟩ := map_eq_ok_iff.mp h
  cases h
  exact hx a _ ha

theorem Behind.mono {x : Parsed α} (hx : Behind us x) (h : us <:+ ts) : Behind ts x :=
  fun a r hr => (hx a r hr).trans h

/-- A reader that starts later leaves an end all the same. -/
theorem Behind.drop {f : List Token → Parsed α} (hf : ∀ ts, Behind ts (f ts)) (n : Nat) :
    Behind ts (f (ts.drop n)) :=
  (hf _).mono (List.drop_suffix n ts)

end behind

theorem behind_name (ts : List Token) : Behind ts (name ts) := by
  unfold name
  split
  · exact behind_ok (List.suffix_cons ..)
  · exact behind_error

theorem behind_relationName (ts : List Token) : Behind ts (relationName ts) := by
  fun_induction relationName ts with
  | case1 v q ts ih => exact (ih.mono ((List.suffix_cons ..).trans (List.suffix_cons ..))).map
  | case2 => exact behind_ok (List.suffix_cons ..)
  | case3 => exact behind_error

theorem behind_namesInside (ts : List Token) : Behind ts (namesInside ts) := by
  fun_induction namesInside ts with
  | case1 v q ts ih => exact (ih.mono ((List.suffix_cons ..).trans (List.suffix_cons ..))).map
  | case2 => exact behind_ok ((List.suffix_cons ..).trans (List.suffix_cons ..))
  | case3 => exact behind_error
  | case4 => exact behind_error

theorem behind_nameList (ts : List Token) : Behind ts (nameList ts) := by
  unfold nameList
  split
  · exact (behind_namesInside _).mono (List.suffix_cons ..)
  · exact behind_error

theorem behind_argumentsInside (ts : List Token) : Behind ts (argumentsInside ts) := by
  fun_induction argumentsInside ts with
  | case1 d long ts ih => exact (ih.mono (List.suffix_cons ..)).map
  | case2 v q ts ih => exact (ih.mono (List.suffix_cons ..)).map
  | case3 ts ih => exact ih.mono (List.suffix_cons ..)
  | case4 => exact behind_ok (List.suffix_cons ..)
  | case5 => exact behind_error

theorem behind_typeArguments (ts : List Token) : Behind ts (typeArguments ts) := by
  unfold typeArguments
  split
  · exact ((behind_argumentsInside _).mono (List.suffix_cons ..)).map
  · exact behind_error

theorem behind_typeName (column : String) (ts : List Token) : Behind ts (typeName column ts) := by
  unfold typeName
  split
  · rename_i v q ts
    have tail (n : Nat) : ts.drop n <:+ .word v q :: ts :=
      (List.drop_suffix n ts).trans (List.suffix_cons ..)
    exact behind_ite (behind_ite ((behind_typeArguments _).mono (tail _)).map (behind_ok (tail _)))
      behind_error
  · exact behind_error

theorem behind_balancedText (depth : Nat) (ts : List Token) :
    Behind ts (balancedText depth ts) := by
  fun_induction balancedText depth ts with
  | case1 => exact behind_error
  | case2 => exact behind_ok (List.suffix_cons ..)
  | case3 d t ts d' _ ih => exact (ih.mono (List.suffix_cons ..)).map

theorem behind_defaultValue (ts : List Token) : Behind ts (defaultValue ts) := by
  unfold defaultValue
  split
  · exact behind_error
  · exact behind_error
  · exact behind_error
  · exact behind_ite ((behind_balancedText 0 _).mono (List.suffix_cons ..)).map
      (behind_ok (List.suffix_cons ..))

theorem behind_reference (ts : List Token) : Behind ts (reference ts) :=
  (behind_relationName ts).bind fun _ r =>
    behind_ite (behind_nameList r).map (behind_ok List.suffix_rfl)

theorem behind_columnAttribute (column : String) (ts : List Token) :
    Behind ts (columnAttribute column ts) := by
  unfold columnAttribute
  refine behind_ite (behind_ok (List.drop_suffix ..)) ?_
  refine behind_ite (behind_ok (List.drop_suffix ..)) ?_
  refine behind_ite (behind_ok (List.drop_suffix ..)) ?_
  refine behind_ite (behind_ok (List.drop_suffix ..)) ?_
  refine behind_ite (behind_ok (List.drop_suffix ..)) ?_
  refine behind_ite (behind_ok (List.drop_suffix ..)) ?_
  refine behind_ite (Behind.drop behind_name 1).map ?_
  refine behind_ite (Behind.drop behind_reference 1).map ?_
  refine behind_ite (Behind.drop behind_defaultValue 1).map ?_
  exact behind_ite (Behind.drop behind_typeArguments 1).map behind_error

theorem behind_columnAttributes (c : ColumnDef) (ts : List Token) :
    Behind ts (columnAttributes c ts) := by
  fun_induction columnAttributes c ts with
  | case1 => exact behind_ok List.suffix_rfl
  | case2 => exact behind_error
  | case3 => exact behind_error
  | case4 => exact behind_error
  | case5 c ts _ hts a r h c' _ ih => exact ih.mono (behind_columnAttribute _ _ _ _ h)

theorem behind_column (position : Nat) (ts : List Token) : Behind ts (column position ts) :=
  (behind_name ts).bind fun n r => (behind_typeName n r).bind fun _ r' =>
    (behind_columnAttributes _ r').bind fun _ _ => behind_ok List.suffix_rfl

theorem behind_constraintBody (ts : List Token) : Behind ts (constraintBody ts) := by
  refine behind_ite (Behind.drop behind_nameList 2).map ?_
  refine behind_ite (Behind.drop behind_nameList 1).map (behind_ite ?_ behind_error)
  refine (Behind.drop behind_nameList 2).bind fun columns r b s h => ?_
  obtain ⟨us, hus, hb⟩ := bind_eq_ok_iff.mp h
  obtain ⟨t, rfl, -⟩ := keyword_eq_ok hus
  exact ((behind_reference us).mono (List.suffix_cons t us)).map b s hb

theorem behind_tableConstraint (ts : List Token) : Behind ts (tableConstraint ts) :=
  behind_ite ((Behind.drop behind_name 1).bind fun _ r => behind_constraintBody r)
    (behind_constraintBody ts)

theorem behind_tableItem (position : Nat) (ts : List Token) : Behind ts (tableItem position ts) :=
  behind_ite (behind_tableConstraint ts).map (behind_column position ts).map

/-! ### The name, the type and the position of a column -/

theorem keeps_withAttribute {c d : ColumnDef} {a : ColumnAttribute} (h : c.withAttribute a = .ok d) :
    d.name = c.name ∧ d.type = c.type ∧ d.position = c.position := by
  cases a with
  | notNull | null =>
    simp only [ColumnDef.withAttribute, ColumnDef.withNullability] at h
    split at h
    · cases h
    · cases h
      exact ⟨rfl, rfl, rfl⟩
  | _ =>
    cases h
    exact ⟨rfl, rfl, rfl⟩

theorem keeps_columnAttributes {c d : ColumnDef} {ts r : List Token}
    (h : columnAttributes c ts = .ok (d, r)) :
    d.name = c.name ∧ d.type = c.type ∧ d.position = c.position := by
  fun_induction columnAttributes c ts with
  | case1 =>
    cases h
    exact ⟨rfl, rfl, rfl⟩
  | case2 => cases h
  | case3 => cases h
  | case4 => cases h
  | case5 c ts _ hts a r' _ c' hc ih =>
    obtain ⟨name, type, position⟩ := keeps_withAttribute hc
    rw [← name, ← type, ← position]
    exact ih h

/-- A column has the name and the type that stand first, and the position that it is read at. -/
theorem column_eq_ok {position : Nat} {c : ColumnDef} {ts r : List Token}
    (h : column position ts = .ok (c, r)) :
    c.position = position ∧ ∃ us vs, name ts = .ok (c.name, us) ∧
      typeName c.name us = .ok (c.type, vs) := by
  simp only [column, bind_eq_ok_iff] at h
  obtain ⟨⟨n, us⟩, hn, ⟨type, vs⟩, ht, ⟨d, _⟩, hd, h⟩ := h
  obtain ⟨names, types, positions⟩ := keeps_columnAttributes hd
  cases h
  have kept : (if d.isPrimary then { d with nullability := .notNull } else d).name = n ∧
      (if d.isPrimary then { d with nullability := .notNull } else d).type = type ∧
      (if d.isPrimary then { d with nullability := .notNull } else d).position = position := by
    split <;> exact ⟨names, types, positions⟩
  rw [kept.1, kept.2.1]
  exact ⟨kept.2.2, us, vs, hn, ht⟩

/-! ### Columns in the order of the text -/

/-- The columns are read from `ts` one behind the other, and numbered from `position` on. -/
inductive Declares : Nat → List Token → List ColumnDef → Prop where
  | nil {position : Nat} {ts : List Token} : Declares position ts []
  | cons {position : Nat} {ts start r : List Token} {c : ColumnDef} {cs : List ColumnDef} :
      start <:+ ts → column position start = .ok (c, r) → Declares (position + 1) r cs →
      Declares position ts (c :: cs)

theorem Declares.mono {position : Nat} {ts us : List Token} {cs : List ColumnDef}
    (h : Declares position us cs) (hs : us <:+ ts) : Declares position ts cs := by
  cases h with
  | nil => exact .nil
  | cons start hc rest => exact .cons (start.trans hs) hc rest

/-- The positions count the columns. -/
theorem Declares.positions {position : Nat} {ts : List Token} {cs : List ColumnDef}
    (h : Declares position ts cs) : cs.map (·.position) = List.range' position cs.length := by
  induction h with
  | nil => rfl
  | cons _ hc _ ih => rw [List.map_cons, ih, (column_eq_ok hc).1, List.length_cons, List.range'_succ]

/-- The columns among items. -/
def columnsOf (items : List TableItem) : List ColumnDef :=
  items.filterMap fun | .column c => some c | _ => none

theorem tableItem_eq_ok {position : Nat} {ts r : List Token} {i : TableItem}
    (h : tableItem position ts = .ok (i, r)) :
    (∃ c, i = .constraint c) ∨ ∃ c, i = .column c ∧ column position ts = .ok (c, r) := by
  unfold tableItem at h
  split at h
  · obtain ⟨⟨c, _⟩, -, h⟩ := map_eq_ok_iff.mp h
    cases h
    exact .inl ⟨c, rfl⟩
  · obtain ⟨⟨c, _⟩, hc, h⟩ := map_eq_ok_iff.mp h
    cases h
    exact .inr ⟨c, rfl, hc⟩

theorem declares_of_tableItems {position : Nat} {ts r : List Token} {items : List TableItem}
    (h : tableItems position ts = .ok (items, r)) : Declares position ts (columnsOf items) := by
  fun_induction tableItems position ts generalizing items with
  | case1 => cases h
  | case2 position ts i r' hi next =>
    rename_i ih
    obtain ⟨⟨is, _⟩, his, h⟩ := map_eq_ok_iff.mp h
    cases h
    have behind := (List.suffix_cons ..).trans (behind_tableItem _ _ _ _ hi)
    obtain ⟨c, rfl⟩ | ⟨c, rfl, hc⟩ := tableItem_eq_ok hi
    · exact (ih his).mono behind
    · exact .cons List.suffix_rfl hc ((ih his).mono (List.suffix_cons ..))
  | case3 position ts i r' _ hi =>
    cases h
    obtain ⟨c, rfl⟩ | ⟨c, rfl, hc⟩ := tableItem_eq_ok hi
    · exact .nil
    · exact .cons List.suffix_rfl hc .nil

/-- The items of a definition are read from some place of its tokens on, and there is a column. -/
theorem exists_items_of_parse {sql : String} {d : TableDef} (h : TableDef.parse sql = .ok d) :
    ∃ ts us items r, Token.scan sql = .ok ts ∧ us <:+ ts ∧ tableItems 0 us = .ok (items, r) ∧
      d.columns = columnsOf items ∧ d.columns ≠ [] := by
  obtain ⟨ts, hts, hd⟩ := parse_eq_ok_iff.mp h
  simp only [ofTokens_def, bind_eq_ok_iff] at hd
  obtain ⟨us, hus, vs, hvs, hd⟩ := hd
  obtain ⟨t, rfl, -⟩ := keyword_eq_ok hus
  obtain ⟨w, hw, -⟩ := keyword_eq_ok hvs
  obtain ⟨name, r, items, attributes, hname, ⟨q, u, -, hitems, -, column, -⟩, rfl⟩ :=
    behindHead_eq_ok_iff.mp hd
  have some_column : columnsOf items ≠ [] := by
    obtain ⟨i, hi, is_column⟩ := List.any_eq_true.mp column
    cases i with
    | column c => exact List.ne_nil_of_mem (List.mem_filterMap.mpr ⟨.column c, hi, rfl⟩)
    | constraint c => cases is_column
  have table : vs <:+ t :: us := by
    refine (List.suffix_cons w vs).trans (.trans ?_ (List.suffix_cons t us))
    rw [← hw]
    split
    · exact List.tail_suffix us
    · exact List.suffix_rfl
  have named : r <:+ vs := by
    refine (behind_relationName _ _ _ hname).trans ?_
    split
    · exact List.drop_suffix ..
    · exact List.suffix_rfl
  exact ⟨t :: us, r.tail, items, q, hts, (List.tail_suffix r).trans (named.trans table), hitems, rfl,
    some_column⟩

/-- The columns of a definition are declared by the tokens of its text. -/
theorem declares_of_parse {sql : String} {d : TableDef} (h : TableDef.parse sql = .ok d) :
    ∃ ts, Token.scan sql = .ok ts ∧ Declares 0 ts d.columns := by
  obtain ⟨ts, us, items, r, hts, place, hitems, columns, -⟩ := exists_items_of_parse h
  exact ⟨ts, hts, columns ▸ (declares_of_tableItems hitems).mono place⟩

end EtlFlow.Sql.Grammar
