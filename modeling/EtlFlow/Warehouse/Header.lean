import EtlFlow.Text.Fold
/-!
# The head of a CREATE TABLE statement

Two changes to the text of a statement: the guard IF NOT EXISTS, and another name.  Words are
recognised in any case and with any blanks between them; a text with another head stays as it is.
-/

namespace EtlFlow.Warehouse.Header

/-- What follows a word and the blanks behind it. -/
def dropWord? (word : String) (s : List Char) : Option (List Char) :=
  (Text.dropWord? word.toList s).bind Text.dropBlanks?

/-- What follows TEMP or TEMPORARY. -/
def dropTemporary? (s : List Char) : Option (List Char) :=
  (dropWord? "temp" s).orElse fun _ => dropWord? "temporary" s

/-- What follows IF NOT EXISTS. -/
def dropGuard? (s : List Char) : Option (List Char) :=
  ((dropWord? "if" s).bind (dropWord? "not")).bind (dropWord? "exists")

/-- What stands between CREATE and TABLE, and what follows TABLE. -/
def split? (s : List Char) : Option (List Char × List Char) := do
  let s ← dropWord? "create" (Text.trimStart s)
  let r := (dropTemporary? s).getD s
  return (s.take (s.length - r.length), ← dropWord? "table" r)

/-- The statement with the guard IF NOT EXISTS. -/
def guarded (sql : String) : String :=
  match split? sql.toList with
  | none => sql
  | some (temporary, r) =>
    "CREATE " ++ String.ofList temporary ++ "TABLE IF NOT EXISTS " ++
      String.ofList ((dropGuard? r).getD r)

/-- The statement with `name` in place of the name behind its head, which ends before a blank or an
opening parenthesis. -/
def rename (name : String) (sql : String) : String :=
  let s := sql.toList
  match split? s with
  | none => sql
  | some (_, r) =>
    let r := (dropGuard? r).getD r
    let behind := r.dropWhile fun c => !Text.isBlank c && c != '('
    if behind.length = r.length then sql
    else String.ofList (s.take (s.length - r.length)) ++ name ++ String.ofList behind

end EtlFlow.Warehouse.Header
