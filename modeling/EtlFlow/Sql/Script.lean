import EtlFlow.Files.Tree
import EtlFlow.Sql.Sanitize
import EtlFlow.Sql.TableDef.Parser
import EtlFlow.Sql.ViewDef
/-!
# Statements and scripts

A statement is one clean piece of SQL without its semicolon, a script a list of them.  A script reads
as its statements, each with a semicolon and on a line of its own.
-/

namespace EtlFlow.Sql

/-- One statement, clean and without its semicolon. -/
structure Statement where
  text : String
  deriving DecidableEq, Repr

/-- Statements in the order in which they run. -/
structure Script where
  statements : List Statement := []
  deriving DecidableEq, Repr

namespace Statement

/-- The only statement of a text. -/
def parse (sql : String) : Except Error Statement :=
  match sanitize true sql with
  | [] => .error .emptyStatement
  | [s] => .ok ⟨s⟩
  | ss => .error (.severalStatements ss.length sql)

/-- The statement with its semicolon. -/
def sql (s : Statement) : String := s.text ++ ";"

/-- The statement defines a table. -/
def createsTable (s : Statement) : Bool := (TableDef.parse s.text).toOption.isSome

/-- The statement defines a view. -/
def createsView (s : Statement) : Bool := (ViewDef.parse s.text).toOption.isSome

end Statement

namespace Script

/-- The script that a text holds. -/
def ofText (sql : String) : Script := ⟨(sanitize true sql).map Statement.mk⟩

/-- The script in the file at a path. -/
def ofFile (files : Files.Tree) (path : String) : Except Error Script :=
  match files.readText path with
  | .ok sql => .ok (ofText sql)
  | .error _ => .error (.unreadable path)

/-- The statements of one script and then those of another. -/
instance : Append Script where
  append a b := ⟨a.statements ++ b.statements⟩

@[simp]
theorem statements_append (a b : Script) : (a ++ b).statements = a.statements ++ b.statements := rfl

/-- The script with one more statement. -/
def push (s : Script) (statement : Statement) : Script := ⟨s.statements ++ [statement]⟩

/-- The texts of the statements. -/
def texts (s : Script) : List String := s.statements.map Statement.text

/-- The script as text, one statement a line. -/
def sql (s : Script) : String := "\n".intercalate (s.statements.map Statement.sql)

/-- The script starts with BEGIN and ends with COMMIT. -/
def isTransaction (s : Script) : Bool :=
  2 ≤ s.statements.length && s.statements.head?.any (Text.sameAscii "BEGIN" ·.text) &&
    s.statements.getLast?.any (Text.sameAscii "COMMIT" ·.text)

/-- The script between BEGIN and COMMIT, which it may have already. -/
def inTransaction (s : Script) : Script :=
  if s.isTransaction then s else ⟨⟨"BEGIN"⟩ :: s.statements ++ [⟨"COMMIT"⟩]⟩

/-- The only statement of a script. -/
def single (s : Script) : Except Error Statement :=
  match s.statements with
  | [only] => .ok only
  | statements => .error (.notOneStatement statements.length)

/-- The table that the only statement of a script defines. -/
def tableDef (s : Script) : Except Error TableDef := do TableDef.parse (← s.single).text

/-- The view that the only statement of a script defines. -/
def viewDef (s : Script) : Except Error ViewDef := do ViewDef.parse (← s.single).text

/-- The script is the definition of a table. -/
def createsTable (s : Script) : Bool := s.tableDef.toOption.isSome

/-- The script is the definition of a view. -/
def createsView (s : Script) : Bool := s.viewDef.toOption.isSome

end Script

end EtlFlow.Sql
