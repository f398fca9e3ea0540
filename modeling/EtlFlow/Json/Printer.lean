import EtlFlow.Json
/-!
# JSON text

The indented form has two blanks for each level, one entry on a line, and nothing between the brackets of what is
empty; the compact form is one line.
-/

namespace EtlFlow.Json

/-! ### Strings -/

/-- A hexadecimal digit in lower case. -/
def hexDigit (n : Nat) : Char :=
  if n < 10 then Char.ofNat ('0'.toNat + n) else Char.ofNat ('a'.toNat + (n - 10))

/-- A character inside a string: quotes, backslashes and control characters are escaped. -/
def escape (c : Char) : List Char :=
  match c with
  | '"' => ['\\', '"']
  | '\\' => ['\\', '\\']
  | '\x08' => ['\\', 'b']
  | '\t' => ['\\', 't']
  | '\n' => ['\\', 'n']
  | '\x0c' => ['\\', 'f']
  | '\r' => ['\\', 'r']
  | c =>
    if c.toNat < 32 then ['\\', 'u', '0', '0', hexDigit (c.toNat / 16), hexDigit (c.toNat % 16)]
    else [c]

/-- A string in quotes. -/
def quoted (s : String) : String := "\"" ++ String.ofList (s.toList.flatMap escape) ++ "\""

/-! ### Layout -/

/-- How entries are laid out inside `depth` brackets, and what stands behind a key. -/
structure Layout where
  lineBreak : Nat → String
  colon : String

/-- One entry on a line. -/
def Layout.indented : Layout := ⟨fun depth => "\n" ++ String.ofList (List.replicate (2 * depth) ' '), ": "⟩

/-- Everything on one line. -/
def Layout.compact : Layout := ⟨fun _ => "", ":"⟩

/-- Entries in brackets. -/
def Layout.bracketed (l : Layout) (opening closing : String) (depth : Nat) (entries : List String) :
    String :=
  if entries.isEmpty then opening ++ closing
  else
    opening ++ ",".intercalate (entries.map (l.lineBreak (depth + 1) ++ ·)) ++ l.lineBreak depth ++
      closing

mutual

/-- The text of a value inside `depth` brackets. -/
def render (l : Layout) (depth : Nat) : Json → String
  | null => "null"
  | bool b => if b then "true" else "false"
  | number text => text
  | string s => quoted s
  | array items => l.bracketed "[" "]" depth (renderItems l (depth + 1) items)
  | object entries => l.bracketed "\x7b" "\x7d" depth (renderEntries l (depth + 1) entries)

/-- The texts of the items of an array. -/
def renderItems (l : Layout) (depth : Nat) : List Json → List String
  | [] => []
  | j :: js => render l depth j :: renderItems l depth js

/-- The texts of the entries of an object. -/
def renderEntries (l : Layout) (depth : Nat) : List (String × Json) → List String
  | [] => []
  | (k, j) :: es => (quoted k ++ l.colon ++ render l depth j) :: renderEntries l depth es

end

/-- The indented text of a value. -/
def pretty (j : Json) : String := render .indented 0 j

/-- The text of a value on one line. -/
def compact (j : Json) : String := render .compact 0 j

end EtlFlow.Json
