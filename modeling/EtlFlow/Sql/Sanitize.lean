import EtlFlow.Text.Blank
import EtlFlow.Text.Fold
/-!
# Clean SQL text

Clean-up of a script before it is read or staged: comments go, the outer transaction may go,
newlines become spaces, runs of semicolons shrink to one, and what is left is split into
statements.  Only a single quote that is closed later opens a literal, and a literal is kept as
it is; the splitter alone also treats an open quote as a literal that runs to the end.
-/

namespace EtlFlow.Sql

/-- Where a scan of SQL text stands. -/
inductive Zone where
  | code
  | literal
  | lineComment
  | blockComment
  deriving DecidableEq, Repr

/-- The zone behind a single quote in code: a literal when a later quote closes it. -/
def Zone.atQuote (rest : List Char) : Zone := if rest.contains '\'' then .literal else .code

/-! ### Comments -/

/-- The text without comments.  A block comment ends at the first `*/` or with the text, a line
comment before its newline. -/
def dropComments : Zone → List Char → List Char
  | .code, '\'' :: s => '\'' :: dropComments (.atQuote s) s
  | .code, '/' :: '*' :: s => dropComments .blockComment s
  | .code, '-' :: '-' :: s => dropComments .lineComment s
  | .code, c :: s => c :: dropComments .code s
  | .literal, c :: s => c :: dropComments (if c = '\'' then .code else .literal) s
  | .lineComment, c :: s =>
    if c = '\n' then c :: dropComments .code s else dropComments .lineComment s
  | .blockComment, '*' :: '/' :: s => dropComments .code s
  | .blockComment, _ :: s => dropComments .blockComment s
  | _, [] => []

/-! ### The outer transaction -/

/-- What follows an opening `BEGIN;` or `BEGIN TRANSACTION;`. -/
def dropBegin? (s : List Char) : Option (List Char) := do
  let s ← Text.dropWord? "begin".toList (Text.trimStart s)
  let s := (Text.dropSpacedWord? "transaction".toList s).getD s
  match Text.trimStart s with
  | ';' :: s => some s
  | _ => none

/-- The text is `COMMIT`, with at most one semicolon behind it and blanks anywhere around. -/
def isCommit (s : List Char) : Bool :=
  match Text.dropWord? "commit".toList (Text.trimStart s) with
  | none => false
  | some s =>
    match Text.trimStart s with
    | [] => true
    | ';' :: s => (Text.trimStart s).isEmpty
    | _ => false

/-- The text up to the semicolon that a closing `COMMIT` follows. -/
def dropFinalCommit : List Char → List Char
  | [] => []
  | c :: s => if c = ';' ∧ isCommit s then [c] else c :: dropFinalCommit s

/-- The text without its opening `BEGIN;` and its closing `COMMIT;`. -/
def dropTransaction (s : List Char) : List Char :=
  let s := (dropBegin? s).getD s
  if isCommit s then [] else dropFinalCommit s

/-! ### Newlines and empty statements -/

/-- The text with a space for every newline outside literals. -/
def joinLines : Zone → List Char → List Char
  | .literal, c :: s => c :: joinLines (if c = '\'' then .code else .literal) s
  | _, '\'' :: s => '\'' :: joinLines (.atQuote s) s
  | _, '\r' :: '\n' :: s => ' ' :: joinLines .code s
  | _, '\n' :: s => ' ' :: joinLines .code s
  | _, c :: s => c :: joinLines .code s
  | _, [] => []

/-- The next character that is no blank is a semicolon. -/
def semicolonNext (s : List Char) : Bool := (Text.trimStart s).head? == some ';'

/-- The text without each semicolon, outside literals, that only blanks part from a later one, and
without those blanks.  `gap` says that the scan stands in such blanks. -/
def joinSemicolons : (gap : Bool) → Zone → List Char → List Char
  | _, .literal, c :: s => c :: joinSemicolons false (if c = '\'' then .code else .literal) s
  | _, _, '\'' :: s => '\'' :: joinSemicolons false (.atQuote s) s
  | _, _, ';' :: s =>
    if semicolonNext s then joinSemicolons true .code s else ';' :: joinSemicolons false .code s
  | gap, _, c :: s =>
    if gap then joinSemicolons true .code s else c :: joinSemicolons false .code s
  | _, _, [] => []

/-- The text with one semicolon for each run of them, and none in front. -/
def dropEmptyStatements (s : List Char) : List Char :=
  (Text.trimStart (joinSemicolons false .code s)).dropWhile (· == ';')

/-! ### Statements -/

/-- The pieces between the semicolons that stand outside single quotes. -/
def fragments : (quoted : Bool) → List Char → List (List Char)
  | _, [] => [[]]
  | quoted, c :: s =>
    if c = ';' ∧ quoted = false then [] :: fragments false s
    else
      match fragments (if c = '\'' then !quoted else quoted) s with
      | [] => [[c]]
      | f :: fs => (c :: f) :: fs

/-- The statements of a text, without the semicolons and blanks around them. -/
def splitStatements (s : List Char) : List (List Char) :=
  ((fragments false s).map Text.trim).filter (· ≠ [])

/-- The statements of a script, cleaned up.  The outer transaction stays only when asked for. -/
def sanitize (keepTransaction : Bool) (sql : String) : List String :=
  let s := dropComments .code sql.toList
  let s := if keepTransaction then s else dropTransaction s
  (splitStatements (dropEmptyStatements (joinLines .code s))).map String.ofList

/-! ### The stages on strings -/

/-- `dropComments` on a whole string. -/
def withoutComments (sql : String) : String := String.ofList (dropComments .code sql.toList)

/-- `dropTransaction` on a string. -/
def withoutTransaction (sql : String) : String := String.ofList (dropTransaction sql.toList)

/-- `joinLines` on a whole string. -/
def onOneLine (sql : String) : String := String.ofList (joinLines .code sql.toList)

/-- `dropEmptyStatements` on a string. -/
def withoutEmptyStatements (sql : String) : String := String.ofList (dropEmptyStatements sql.toList)

/-- `splitStatements` on a string. -/
def statementTexts (sql : String) : List String := (splitStatements sql.toList).map String.ofList

end EtlFlow.Sql
