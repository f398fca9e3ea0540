import EtlFlow.Sql.Error
/-!
# The projection of a query

The expressions between SELECT and FROM, split at the commas outside parentheses and quotes, and the
name under which an expression is projected.  Either quote character opens a quotation, which ends at
the next character of its kind.
-/

namespace EtlFlow.Sql.Select

/-- The character may stand in an identifier next to a keyword. -/
def inIdentifier (c : Char) : Bool := c.isAlphanum || c == '_' || c == '$'

/-- What follows the keyword at the front of the text, where no identifier goes on behind it. -/
def afterKeyword? (word s : List Char) : Option (List Char) :=
  (Text.dropAsciiWord? word s).filter fun r => !r.head?.any inIdentifier

/-! ### The top level -/

/-- Where a scan stands: how many parentheses are open, and which quote, if any. -/
structure Level where
  depth : Int := 0
  quote : Option Char := none
  deriving DecidableEq, Repr

/-- The level behind a character. -/
def Level.after (l : Level) (c : Char) : Level :=
  match l.quote with
  | some q => if c = q then { l with quote := none } else l
  | none =>
    if c = '\'' ∨ c = '"' then { l with quote := some c }
    else if c = '(' then { l with depth := l.depth + 1 }
    else if c = ')' then { l with depth := l.depth - 1 }
    else l

/-- The level is outside all parentheses and quotes. -/
def Level.isTop (l : Level) : Bool := l.depth == 0 && l.quote.isNone

/-- The text before the first top-level `word` and the text behind it.  `joined` says that an
identifier runs up to the text. -/
def splitKeyword? (word : List Char) : (joined : Bool) → Level → List Char →
    Option (List Char × List Char)
  | _, _, [] => none
  | joined, l, c :: s =>
    match if l.isTop ∧ !joined then afterKeyword? word (c :: s) else none with
    | some r => some ([], r)
    | none => (splitKeyword? word (inIdentifier c) (l.after c) s).map fun (v, r) => (c :: v, r)

/-- The pieces between the top-level commas. -/
def splitCommas : Level → List Char → List (List Char)
  | _, [] => [[]]
  | l, c :: s =>
    if l.isTop ∧ c = ',' then [] :: splitCommas l s
    else
      match splitCommas (l.after c) s with
      | [] => [[c]]
      | p :: ps => (c :: p) :: ps

/-! ### The columns -/

/-- The text without the keyword at its front and the blanks behind it. -/
def dropModifier (word s : List Char) : List Char := ((afterKeyword? word s).map Text.trimStart).getD s

/-- The text without the semicolons at its end. -/
def dropSemicolons (s : List Char) : List Char := (s.reverse.dropWhile (· == ';')).reverse

/-- The text between SELECT and FROM, without DISTINCT or ALL. -/
def projection? (s : List Char) : Option (List Char) := do
  let (_, behind) ← splitKeyword? "select".toList false {} s
  let text := ((splitKeyword? "from".toList false {} behind).map (·.1)).getD behind
  let text := Text.trim (dropSemicolons (Text.trim text))
  return dropModifier "all".toList (dropModifier "distinct".toList text)

/-- The expressions that a query projects. -/
def columns (sql : String) : Except Error (List String) :=
  match projection? sql.toList with
  | none => .error (.noSelect sql)
  | some text =>
    let pieces := (splitCommas {} text).map Text.trim
    if pieces.any List.isEmpty then .error (.emptyColumn (String.ofList text))
    else .ok (pieces.map String.ofList)

/-- The last word of an expression, without its quotes. -/
def columnName (expression : String) : Except Error String :=
  match Token.scan expression with
  | .error e => .error (.lexical e)
  | .ok ts =>
    match (ts.filterMap fun | .word v _ => some v | _ => none).getLast? with
    | some v => .ok v
    | none => .error (.noColumnName expression)

end EtlFlow.Sql.Select
