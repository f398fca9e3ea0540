import EtlFlow.Warehouse.Relation
/-!
# Databases

Relations by name, in the order in which they were added.  A database can be created relation by
relation when no relation depends on itself through others: `hasCycles` looks for such a circle along
the dependencies, `sorted` takes out, in passes, the relations whose dependencies are out already.
-/

namespace EtlFlow.Warehouse

/-- Relations with distinct names. -/
structure Database where
  relations : List Relation := []
  nodup_names : (relations.map Relation.fullName).Nodup := by simp

namespace Database

/-- The names of the relations. -/
def names (db : Database) : List String := db.relations.map Relation.fullName

/-- The relation of a name. -/
def find? (db : Database) (name : String) : Option Relation :=
  db.relations.find? (·.fullName == name)

/-- The database with one more relation. -/
def add (db : Database) (r : Relation) : Except Error Database :=
  if h : r.fullName ∈ db.relations.map Relation.fullName then .error (.duplicate r.fullName)
  else .ok ⟨db.relations ++ [r], by simpa [List.nodup_append, db.nodup_names] using h⟩

/-- The database of some relations. -/
def ofRelations (rs : List Relation) : Except Error Database := rs.foldlM add {}

/-- The database with the relations that the statements of a file define. -/
def addFile (files : Files.Tree) (db : Database) (path : String) : Except Error Database := do
  let script ← Error.ofSql (Sql.Script.ofFile files path)
  script.statements.foldlM (fun db s => do db.add (← Relation.ofStatement s)) db

/-- The database of the relations that files define. -/
def ofFiles (files : Files.Tree) (paths : List String) : Except Error Database :=
  paths.foldlM (addFile files) {}

/-- The database of the relations that the SQL files below a directory define. -/
def ofDirectory (files : Files.Tree) (path : String) : Except Error Database := do
  ofFiles files (← (Files.filesWithExtension files path "sql").mapError .noDirectory)

/-- The relations of the database that a relation depends on, itself apart. -/
def reads (db : Database) (name : String) : List String :=
  match db.find? name with
  | none => []
  | some r => r.dependencies.filter fun d => d != name && db.names.contains d

/-! ### Circles -/

/-- Follows dependencies from the given names.  `path` leads to them, and `done` are names from which no
circle is reached; the answer adds to these, or is none where the search comes back to its path.
`free` bounds how far the path can still grow. -/
def search (reads : String → List String) (free : Nat) (path done : List String) :
    List String → Option (List String)
  | [] => some done
  | n :: ns =>
    if n ∈ path then none
    else if n ∈ done then search reads free path done ns
    else
      match free with
      | 0 => none
      | free + 1 =>
        match search reads free (n :: path) done (reads n) with
        | none => none
        | some done => search reads (free + 1) path (n :: done) ns
termination_by names => (free, names.length)

/-- Some relation depends on itself through others. -/
def hasCycles (db : Database) : Bool :=
  (search db.reads db.relations.length [] [] db.names).isNone

/-! ### Order -/

/-- One pass over the relations that are left: each one whose dependencies are out goes out too.  The
answer is what is out then, and what is still left. -/
def pass (db : Database) (out : List Relation) : List Relation → List Relation × List Relation
  | [] => (out, [])
  | r :: rs =>
    if (db.reads r.fullName).all (out.map Relation.fullName).contains then pass db (out ++ [r]) rs
    else
      let (out, left) := pass db out rs
      (out, r :: left)

theorem pass_length_le (db : Database) (out rs : List Relation) :
    (pass db out rs).2.length ≤ rs.length := by
  induction rs generalizing out with
  | nil => simp [pass]
  | cons r rs ih =>
    unfold pass
    split
    · have := ih (out ++ [r])
      simp only [List.length_cons]
      omega
    · have := ih out
      simp only [List.length_cons]
      omega

/-- Passes until nothing is left. -/
def passes (db : Database) (out left : List Relation) : Except Error (List Relation) :=
  if left = [] then .ok out
  else
    let next := pass db out left
    if next.2.length < left.length then passes db next.1 next.2
    else .error (.cycle (left.map Relation.fullName))
termination_by left.length

/-- The relations, each behind all that it depends on. -/
def sorted (db : Database) : Except Error (List Relation) := passes db [] db.relations

/-! ### Scripts -/

/-- Creates the relations, each behind all that it depends on. -/
def createScript (db : Database) (permissions : List Permission) : Except Error Sql.Script :=
  db.sorted.map fun rs => ⟨rs.flatMap fun r => (r.createScript permissions).statements⟩

/-- Drops the relations, each before all that it depends on. -/
def dropScript (db : Database) : Except Error Sql.Script :=
  db.sorted.map fun rs => ⟨rs.reverse.flatMap fun r => r.dropScript.statements⟩

end Database

end EtlFlow.Warehouse
