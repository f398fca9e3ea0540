import EtlFlow.Text.Blank
/-!
# Letter case

Two ways of comparing without regard to case.  `sameAscii` folds the ASCII letters alone.
`foldsTo` is the simple case folding of Unicode as far as a word of ASCII letters can tell: beside
the capital letters only the long s and the Kelvin sign fold into ASCII.
-/

namespace EtlFlow.Text

/-- The text with its ASCII capitals made small. -/
def lowerAscii (s : String) : String := s.map Char.toLower

/-- The text with its small ASCII letters made capital. -/
def upperAscii (s : String) : String := s.map Char.toUpper

/-- Equality up to the case of ASCII letters. -/
def sameAscii (a b : String) : Bool := lowerAscii a == lowerAscii b

/-- The ASCII letter or other character that `c` folds to. -/
def foldCase (c : Char) : Char :=
  if c = 'ſ' then 's' else if c = 'K' then 'k' else c.toLower

/-- What follows `word` at the front of the text, where `fold` brings the text to the case of the
word. -/
def dropFolded? (fold : Char → Char) : (word : List Char) → List Char → Option (List Char)
  | [], s => some s
  | _ :: _, [] => none
  | w :: ws, c :: s => if fold c = w then dropFolded? fold ws s else none

/-- What follows `word`, a word in small ASCII letters, at the front of the text, in any case. -/
def dropWord? (word s : List Char) : Option (List Char) := dropFolded? foldCase word s

/-- What follows `word`, a word in small ASCII letters, at the front of the text, up to the case of
ASCII letters. -/
def dropAsciiWord? (word s : List Char) : Option (List Char) := dropFolded? Char.toLower word s

/-- What follows the blanks at the front of the text, where there is at least one. -/
def dropBlanks? : List Char → Option (List Char)
  | [] => none
  | c :: s => if isBlank c then some (trimStart s) else none

/-- What follows `word` behind at least one blank. -/
def dropSpacedWord? (word s : List Char) : Option (List Char) :=
  (dropBlanks? s).bind (dropWord? word)

end EtlFlow.Text
