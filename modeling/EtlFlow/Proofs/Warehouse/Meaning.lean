import EtlFlow.Proofs.Sql.Scan
import EtlFlow.Proofs.Warehouse.Rows
import EtlFlow.Warehouse.Command
/-!
# What the generated statements mean

A state of the warehouse gives the contents of its tables, by names up to the case of ASCII letters,
and a statement leads from one state to another (`Runs`).  Where SQL leaves a choice, as in the row
that gets the first rank among rows of one key, a statement may lead to several states; where it is
an error, it leads to none.  Tables are multisets of rows: constraints are declarations that nothing
checks.

What a text behind FROM reads is up to the engine, except that a dotted list of identifiers reads
the table of that name.
-/

namespace EtlFlow.Warehouse

open Text (lowerAscii sameAscii)
open Truth Row

variable {V : Type}

/-! ### States -/

/-- The tables of a warehouse. -/
def State (V : Type) := String → Option (Contents V)

namespace State

/-- What the table of a name holds, if there is one. -/
def get (db : State V) (name : String) : Option (Contents V) := db (lowerAscii name)

/-- The state with other contents of the table of a name, or without it. -/
def set (db : State V) (name : String) (contents : Option (Contents V)) : State V :=
  fun n => if n = lowerAscii name then contents else db n

variable {db : State V} {name other : String} {c d : Option (Contents V)}

theorem get_congr (h : sameAscii other name) : db.get other = db.get name := by
  rw [get, get, sameAscii_iff.mp h]

theorem get_set_same (h : sameAscii other name) : (db.set name c).get other = c := by
  rw [get, set, if_pos (sameAscii_iff.mp h)]

@[simp]
theorem get_set_self : (db.set name c).get name = c := get_set_same (sameAscii_refl name)

theorem get_set_ne (h : sameAscii other name = false) :
    (db.set name c).get other = db.get other := by
  rw [get, set, if_neg (sameAscii_eq_false.mp h), get]

theorem get_set_ne' (h : sameAscii name other = false) : (db.set name c).get other = db.get other :=
  get_set_ne ((sameAscii_comm other name).trans h)

end State

/-! ### What statements depend on -/

/-- What the warehouse adds to the text of the statements. -/
structure Engine (V : Type) where
  /-- What a text behind FROM reads. -/
  read : String → State V → Option (Rowset V)
  /-- A plain name reads the table of that name. -/
  read_path (name : String) (db : State V) : Sql.Token.IsPath name →
    read name db = (db.get name).map Contents.toRowset
  /-- The default of a column of a table. -/
  default (table column : String) : Option V
  /-- The value of `maxTimestamp`. -/
  latest : V

/-- The engine that reads tables alone and has no defaults. -/
def Engine.plain (latest : V) : Engine V where
  read name db := (db.get name).map Contents.toRowset
  read_path _ _ _ := rfl
  default _ _ := none
  latest := latest

/-- When statements run: SYSDATE, which stays the same meanwhile, and the time just before. -/
structure Moment (e : Engine V) where
  now : V
  justBefore : V
  now_ne : now ≠ e.latest
  justBefore_ne : justBefore ≠ e.latest

/-! ### Conditions -/

section conditions

variable [DecidableEq V]

/-- The equations between columns of two rows. -/
def Truth.equations (lefts : List String) (l : Row V) (rights : List String) (r : Row V)
    (pairs : List (String × String)) : Truth :=
  conjunction (pairs.map fun p => equal (l.cell lefts p.1) (r.cell rights p.2))

theorem zip_self (keys : List String) : keys.zip keys = keys.map fun k => (k, k) := by
  rw [← List.zip_map', List.map_id']

/-- Keys are equal when no part is NULL and all parts are the same. -/
theorem Truth.equations_zip_eq_true {lefts rights keys : List String} {l r : Row V} :
    equations lefts l rights r (keys.zip keys) = some true ↔
      l.cells lefts keys = r.cells rights keys ∧ none ∉ l.cells lefts keys := by
  rw [equations, conjunction_eq_true, zip_self, List.map_map, List.forall_mem_map]
  simp only [Function.comp_apply, equal_eq_true, cells, List.mem_map, not_exists, not_and,
    List.map_inj_left, ne_eq, forall_and]

/-- The parts of the condition that two values differ, where NULL equals NULL alone. -/
def Truth.difference (a b : Option V) : List Truth :=
  [negation (equal a b), some (a.isNone && b.isSome), some (a.isSome && b.isNone)]

/-- One row for each key among some rows. -/
structure OnePerKey (key : Row V → Row V) (rows chosen : Multiset (Row V)) : Prop where
  le : chosen ≤ rows
  nodup : (chosen.map key).Nodup
  mem : ∀ r ∈ rows, key r ∈ chosen.map key

variable (e : Engine V)

/-- A row of a history table is current. -/
def Truth.current (columns : List String) (r : Row V) : Truth :=
  equal (r.cell columns expirationColumn) (some e.latest)

/-- A current row of a history table differs from a row with the same keys. -/
def Truth.changed (columns : List String) (r : Row V) (others : List String) (s : Row V)
    (keys values : List String) : Truth :=
  conjunction [equations columns r others s (keys.zip keys),
    disjunction (values.flatMap fun n => difference (r.cell columns n) (s.cell others n)),
    current e columns r]

/-- A current row of a history table has keys that are in no row of a snapshot. -/
def Truth.vanished (columns : List String) (r : Row V) (q : Rowset V) (keys : List String) :
    Truth :=
  conjunction [negation (disjunction
    (q.rows.map fun s => equations columns r q.columns s (keys.zip keys))), current e columns r]

end conditions

/-- The text reads rows whose columns stand behind the qualifier. -/
def Qualifies (source qualifier : String) : Prop :=
  source = qualifier ∨ ∃ query, source = query ++ " AS " ++ qualifier

/-- The column that ranks the rows of a key. -/
def rankColumn : String := "row_rank"

/-! ### Statements -/

variable [DecidableEq V]

/-- The statement leads from one state to another. -/
inductive Runs (e : Engine V) (m : Moment e) : Command → State V → State V → Prop where
  | define {sql : String} {d : Sql.TableDef} {db : State V} : Sql.TableDef.parse sql = .ok d →
      db.get d.fullName = none → (h : Distinct (d.columns.map (·.name))) →
      Runs e m (.define sql) db (db.set d.fullName (some (.empty _ h)))
  | defined {sql : String} {d : Sql.TableDef} {c : Contents V} {db : State V} :
      Sql.TableDef.parse sql = .ok d → db.get d.fullName = some c → d.ifNotExists = true →
      Runs e m (.define sql) db db
  | clone {name : String} {columns : List Column} {db : State V} : db.get name = none →
      (h : Distinct (columns.map (·.name))) →
      Runs e m (.clone name columns) db (db.set name (some (.empty _ h)))
  | insertAll {table source : String} {c : Contents V} {q : Rowset V} {db : State V} :
      db.get table = some c → e.read source db = some q → q.columns.length ≤ c.columns.length →
      (h : ∀ r ∈ c.rows + q.rows.map (padded (e.default table) c.columns),
        r.length = c.columns.length) →
      Runs e m (.insertAll table source) db (db.set table (some (c.withRows _ h)))
  | deleteAll {table : String} {c : Contents V} {db : State V} : db.get table = some c →
      Runs e m (.deleteAll table) db (db.set table (some (.empty _ c.distinct)))
  | deleteMatching {table source qualifier : String} {keys names : List String} {c : Contents V}
      {q : Rowset V} {db : State V} : db.get table = some c → e.read source db = some q →
      Qualifies source qualifier → keys.zip names ≠ [] →
      (∀ p ∈ keys.zip names, HasColumn c.columns p.1 ∧ HasColumn q.columns p.2) →
      Runs e m (.deleteMatching table keys source qualifier names) db
        (db.set table (some (c.filter fun r =>
          ¬q.Any fun s => equations c.columns r q.columns s (keys.zip names))))
  | insertRanked {table scratch : String} {columns keys : List String} {c : Contents V}
      {q : Rowset V} {chosen : Multiset (Row V)} {db : State V} : db.get table = some c →
      e.read scratch db = some q → columns ≠ [] → keys ≠ [] →
      (∀ n ∈ columns ++ keys, HasColumn q.columns n) →
      (∀ n ∈ q.columns, sameAscii n rankColumn = false) → columns.length ≤ c.columns.length →
      OnePerKey (fun r => r.cells q.columns keys) q.rows chosen →
      (h : ∀ r ∈ c.rows + chosen.map fun r =>
        padded (e.default table) c.columns (r.cells q.columns columns),
          r.length = c.columns.length) →
      Runs e m (.insertRanked table columns keys scratch) db (db.set table (some (c.withRows _ h)))
  | drop {table : String} {c : Contents V} {db : State V} : db.get table = some c →
      Runs e m (.drop table) db (db.set table none)
  /-- Whatever hangs on a relation may go with it. -/
  | dropRelation {kind name : String} {db db' : State V} : db'.get name = none →
      (∀ n, db' n = db n ∨ db' n = none) → Runs e m (.dropRelation kind name) db db'
  | readAll {relation : String} {q : Rowset V} {db : State V} : e.read relation db = some q →
      Runs e m (.readAll relation) db db
  | grant {privilege relation : String} {grantee : Grantee} {db : State V} :
      Runs e m (.grant privilege relation grantee) db db
  | addForeignKey {table : String} {key : ForeignKey} {c : Contents V} {db : State V} :
      db.get table = some c → Runs e m (.addForeignKey table key) db db
  | expireChanged {history snapshot : String} {keys values : List String} {c : Contents V}
      {q : Rowset V} {db : State V} : db.get history = some c → e.read snapshot db = some q →
      keys ≠ [] → values ≠ [] →
      (∀ n ∈ keys ++ values, HasColumn c.columns n ∧ HasColumn q.columns n) →
      HasColumn c.columns expirationColumn →
      Runs e m (.expireChanged history snapshot keys values) db (db.set history
        (some (c.update (fun r => q.Any fun s => changed e c.columns r q.columns s keys values)
          expirationColumn (some m.justBefore))))
  | expireVanished {history snapshot : String} {keys : List String} {c : Contents V}
      {q : Rowset V} {db : State V} : db.get history = some c → e.read snapshot db = some q →
      keys ≠ [] → (∀ n ∈ keys, HasColumn c.columns n ∧ HasColumn q.columns n) →
      HasColumn c.columns expirationColumn →
      Runs e m (.expireVanished history snapshot keys) db (db.set history
        (some (c.update (fun r => vanished e c.columns r q keys = some true)
          expirationColumn (some m.justBefore))))
  | deleteCurrent {staged history : String} {keys : List String} {c : Contents V} {q : Rowset V}
      {db : State V} : db.get staged = some c → e.read history db = some q → keys ≠ [] →
      (∀ n ∈ keys, HasColumn c.columns n ∧ HasColumn q.columns n) →
      HasColumn q.columns expirationColumn →
      Runs e m (.deleteCurrent staged history keys) db (db.set staged
        (some (c.filter fun s => ¬q.Any fun r => conjunction
          [equations c.columns s q.columns r (keys.zip keys), current e q.columns r])))
  | insertCurrent {history staged : String} {columns : List String} {c : Contents V} {q : Rowset V}
      {db : State V} : db.get history = some c → e.read staged db = some q →
      (∀ n ∈ columns, HasColumn q.columns n) →
      Distinct (effectiveColumn :: expirationColumn :: columns) →
      (∀ n ∈ effectiveColumn :: expirationColumn :: columns, HasColumn c.columns n) →
      (h : ∀ r ∈ c.rows + q.rows.map fun s =>
        assigned ((effectiveColumn, some m.now) :: (expirationColumn, some e.latest) ::
          columns.map fun n => (n, s.cell q.columns n)) (e.default history) c.columns,
        r.length = c.columns.length) →
      Runs e m (.insertCurrent history staged columns) db (db.set history (some (c.withRows _ h)))

section outcomes

variable {e : Engine V} {m : Moment e} {db db' : State V} {c d : Contents V} {q : Rowset V}
  {table source : String}

end outcomes

end EtlFlow.Warehouse
