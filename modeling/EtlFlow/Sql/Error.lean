import EtlFlow.Sql.Token.Lexer
/-!
# Why SQL text is refused

One constructor for each cause.  A cause belongs to one of three classes, which its wording names
first.
-/

namespace EtlFlow.Sql

/-- Why tokens do not form the statement that is read. -/
inductive GrammarError where
  | lexical (cause : LexError)
  | expected (what found : String)
  | noName (found : String)
  | trailing (found : String)
  deriving DecidableEq, Repr

/-- The wording of a grammar error. -/
def GrammarError.message : GrammarError → String
  | .lexical cause => "sql parser error: " ++ cause.message
  | .expected what found => "sql parser error: Expected: " ++ what ++ ", found: " ++ found
  | .noName found => "sql parser error: Expected identifier, found " ++ found
  | .trailing found => "sql parser error: Unexpected trailing input starting at " ++ found

/-- Why SQL text is refused. -/
inductive Error where
  | lexical (cause : LexError)
  | grammar (cause : GrammarError)
  | notView (sql : String)
  | emptyStatement
  | severalStatements (count : Nat) (sql : String)
  | notOneStatement (count : Nat)
  | nullAndNotNull (column : String)
  | unknownType (found column : String)
  | typeArgument (found : String)
  | columnAttribute (found column : String)
  | noColumns (table : String)
  | tableConstraint (found : String)
  | noDefaultValue
  | openDefault
  | distStyle (style : String)
  | emptyView (view : String)
  | viewBody (view body : String)
  | noSelect (sql : String)
  | emptyColumn (projection : String)
  | noColumnName (expression : String)
  /-- The file at `path` cannot be read as text. -/
  | unreadable (path : String)
  deriving DecidableEq, Repr

/-- The classes of causes. -/
inductive ErrorClass where
  | parse
  | shape
  | io
  deriving DecidableEq, Repr

namespace Error

/-- The class of a cause. -/
def errorClass : Error → ErrorClass
  | .lexical _ | .grammar _ | .notView _ => .parse
  | .unreadable _ => .io
  | _ => .shape

/-- The wording of a cause without its class. -/
def detail : Error → String
  | .lexical cause => cause.message
  | .grammar cause => cause.message
  | .notView sql => "not a CREATE VIEW statement: '" ++ sql ++ "'"
  | .emptyStatement => "empty SQL statement"
  | .severalStatements n sql =>
    "expected a single statement, found " ++ toString n ++ " in '" ++ sql ++ "'"
  | .notOneStatement n => "expected a single statement, script has " ++ toString n
  | .nullAndNotNull c => "column '" ++ c ++ "' is declared both NULL and NOT NULL"
  | .unknownType t c => "unknown type '" ++ t ++ "' for column '" ++ c ++ "'"
  | .typeArgument t => "unexpected '" ++ t ++ "' in type arguments"
  | .columnAttribute t c => "unexpected '" ++ t ++ "' in definition of column '" ++ c ++ "'"
  | .noColumns t => "table '" ++ t ++ "' declares no columns"
  | .tableConstraint t => "unsupported table constraint near '" ++ t ++ "'"
  | .noDefaultValue => "DEFAULT without a value"
  | .openDefault => "unbalanced DEFAULT expression"
  | .distStyle s => "unknown DISTSTYLE '" ++ s ++ "'"
  | .emptyView v => "view '" ++ v ++ "' has an empty body"
  | .viewBody v b => "view '" ++ v ++ "' body is not a SELECT: '" ++ b ++ "'"
  | .noSelect sql => "no SELECT clause in '" ++ sql ++ "'"
  | .emptyColumn p => "empty column expression in '" ++ p ++ "'"
  | .noColumnName e => "no column name in '" ++ e ++ "'"
  | .unreadable path => "reading " ++ path

/-- The wording of a cause. -/
def message (e : Error) : String :=
  match e.errorClass with
  | .parse => "SQL parse error: " ++ e.detail
  | .shape => "SQL structure error: " ++ e.detail
  | .io => "I/O error: " ++ e.detail

end Error

end EtlFlow.Sql
