import EtlFlow.Yaml.Error
/-!
# Characters in place

A text as its characters with the place of each.  Every spelling of a line break but the two separators
of Unicode becomes a line feed, and control characters are refused.
-/

namespace EtlFlow.Yaml

/-- A character and where it stands. -/
structure Glyph where
  char : Char
  line : Nat
  column : Nat
  index : Nat
  deriving DecidableEq, Repr

namespace Glyph

/-- The character may stand in a document. -/
def isAllowed (c : Char) : Bool :=
  let n := c.toNat
  n == 0x09 || n == 0x0A || n == 0x0D || (0x20 ≤ n && n ≤ 0x7E) || n == 0x85 ||
    (0xA0 ≤ n && n ≤ 0xD7FF) || (0xE000 ≤ n && n ≤ 0xFFFD) || 0x10000 ≤ n

/-- The separators of lines and of paragraphs. -/
def isSeparator (c : Char) : Bool := c.toNat == 0x2028 || c.toNat == 0x2029

/-- The characters of a text in their places. -/
def ofChars : (line column index : Nat) → List Char → Except SyntaxError (List Glyph)
  | _, _, _, [] => .ok []
  | line, column, index, '\r' :: '\n' :: s =>
    (ofChars (line + 1) 0 (index + 2) s).map (⟨'\n', line, column, index⟩ :: ·)
  | line, column, index, c :: s =>
    if !isAllowed c then .error (.character c)
    else if c = '\n' ∨ c = '\r' ∨ c.toNat = 0x85 then
      (ofChars (line + 1) 0 (index + 1) s).map (⟨'\n', line, column, index⟩ :: ·)
    else if isSeparator c then
      (ofChars (line + 1) 0 (index + 1) s).map (⟨c, line, column, index⟩ :: ·)
    else (ofChars line (column + 1) (index + 1) s).map (⟨c, line, column, index⟩ :: ·)

/-- The glyph ends a line. -/
def isBreak (g : Glyph) : Bool := g.char == '\n' || isSeparator g.char

/-- The glyph is a space or a tab. -/
def isBlank (g : Glyph) : Bool := g.char == ' ' || g.char == '\t'

/-- The glyph is a space, a tab or the end of a line. -/
def isSpace (g : Glyph) : Bool := g.isBlank || g.isBreak

end Glyph

/-- The next character is `c`. -/
def nextIs (c : Char) : List Glyph → Bool
  | [] => false
  | g :: _ => g.char == c

/-- The next character is one of `cs`. -/
def nextIn (cs : String) : List Glyph → Bool
  | [] => false
  | g :: _ => cs.toList.contains g.char

/-- Nothing follows, or a blank or the end of a line. -/
def atSpace : List Glyph → Bool
  | [] => true
  | g :: _ => g.isSpace

/-- Three copies of `c` and then a space stand here. -/
def atMark (c : Char) : List Glyph → Bool
  | x :: y :: z :: r => x.char == c && y.char == c && z.char == c && atSpace r
  | _ => false

/-- A mark of a document stands at the start of a line. -/
def atDocumentMark (gs : List Glyph) : Bool :=
  gs.head?.any (·.column == 0) && (atMark '-' gs || atMark '.' gs)

end EtlFlow.Yaml
