import EtlFlow.Sql.Grammar
import EtlFlow.Sql.Select.Projection
import EtlFlow.Sql.Select.Reads
/-!
# View definitions

What a CREATE VIEW statement says.  The header is recognised in the text itself; only the name is read
from tokens.  The body is kept as written, less one pair of parentheses around it.
-/

namespace EtlFlow.Sql

/-- A view as declared. -/
structure ViewDef where
  name : String
  orReplace : Bool
  body : String
  deriving DecidableEq, Repr

namespace ViewDef

/-! ### The header -/

/-- What follows blanks, AS and blanks. -/
def afterAs? (s : List Char) : Option (List Char) :=
  (Text.dropSpacedWord? "as".toList s).bind Text.dropBlanks?

/-- The text before the first AS that stands between blanks, and the text behind it. -/
def splitAs? : List Char → Option (List Char × List Char)
  | [] => none
  | c :: s =>
    match afterAs? s with
    | some body => some ([c], body)
    | none => (splitAs? s).map fun (v, r) => (c :: v, r)

/-- The name and the body behind VIEW and its blanks.  The name is not empty; where no other name
fits, one of at least three blanks before AS is taken for it. -/
def nameAndBody? (s : List Char) : Option (List Char × List Char) := do
  let behind ← Text.dropBlanks? s
  match splitAs? behind with
  | some found => some found
  | none =>
    let blanks := s.take (s.length - behind.length)
    let body ← afterAs? (s.drop (blanks.length - 1))
    if 3 ≤ blanks.length then some (blanks.take 1, body) else none

/-- The text without blanks, a semicolon and again blanks at its end. -/
def dropEnd (s : List Char) : List Char :=
  match (Text.trimEnd s).reverse with
  | ';' :: r => Text.trimEnd r.reverse
  | r => r.reverse

/-- The parts of a CREATE VIEW statement: whether it replaces, the name and the body. -/
def header? (s : List Char) : Option (Bool × List Char × List Char) := do
  let s ← Text.dropWord? "create".toList (Text.trimStart s)
  let replaced := (Text.dropSpacedWord? "or".toList s).bind
    (Text.dropSpacedWord? "replace".toList)
  let s ← Text.dropSpacedWord? "view".toList (replaced.getD s)
  let (name, body) ← nameAndBody? s
  return (replaced.isSome, name, Text.trim (dropEnd body))

/-! ### The body -/

/-- The text up to the parenthesis that closes the `depth` open ones, and the text behind it. -/
def splitClosing? : (depth : Nat) → (quote : Option Char) → List Char →
    Option (List Char × List Char)
  | _, _, [] => none
  | depth, some q, c :: s =>
    (splitClosing? depth (if c = q then none else some q) s).map fun (v, r) => (c :: v, r)
  | depth, none, c :: s =>
    if c = ')' ∧ depth = 1 then some ([], s)
    else
      let depth := if c = '(' then depth + 1 else if c = ')' then depth - 1 else depth
      let quote := if c = '\'' ∨ c = '"' then some c else none
      (splitClosing? depth quote s).map fun (v, r) => (c :: v, r)

/-- The text without the parentheses around the whole of it. -/
def dropParens : List Char → List Char
  | '(' :: s =>
    match splitClosing? 1 none s with
    | some (inner, []) => Text.trim inner
    | _ => '(' :: s
  | s => s

/-- The first word of a body. -/
def firstWord (s : List Char) : String :=
  String.ofList (s.takeWhile fun c => !Text.isBlank c && c != '(')

/-! ### The definition -/

/-- The name that the text between VIEW and AS spells. -/
def readName (text : String) : Except Error String := do
  let (n, ts) ← Grammar.relationName (← Grammar.definitionTokens text)
  Grammar.atEnd ts
  return n

/-- The definition that a statement gives. -/
def parse (sql : String) : Except Error ViewDef := do
  match header? sql.toList with
  | none => throw (.notView sql)
  | some (orReplace, nameText, bodyText) =>
    let name ← readName (String.ofList nameText)
    let body := dropParens bodyText
    if body.isEmpty then throw (.emptyView name)
    if Text.upperAscii (firstWord body) ∉ ["SELECT", "WITH"] then
      throw (.viewBody name (String.ofList body))
    return ⟨name, orReplace, String.ofList body⟩

/-- The relations that the body reads. -/
def dependencies (v : ViewDef) : Except Error (List String) := Select.dependencies v.body

end ViewDef

end EtlFlow.Sql
