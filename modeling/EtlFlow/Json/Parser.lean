import EtlFlow.Json
/-!
# Reading JSON text

A reader takes a value from the front of a text and leaves the rest.  A key that comes again in an object keeps its
first place and takes its last value.
-/

namespace EtlFlow.Json

/-! ### Blanks, digits and strings -/

/-- The text behind the blanks at its front. -/
def skipBlanks (s : List Char) : List Char :=
  s.dropWhile fun c => c == ' ' || c == '\t' || c == '\n' || c == '\r'

/-- The value of a hexadecimal digit. -/
def hexValue? (c : Char) : Option Nat :=
  if c.isDigit then some (c.toNat - '0'.toNat)
  else if 'a' ≤ c ∧ c ≤ 'f' then some (c.toNat - 'a'.toNat + 10)
  else if 'A' ≤ c ∧ c ≤ 'F' then some (c.toNat - 'A'.toNat + 10)
  else none

/-- The number that four hexadecimal digits spell. -/
def hexNumber? (a b c d : Char) : Option Nat := do
  return (((← hexValue? a) * 16 + (← hexValue? b)) * 16 + (← hexValue? c)) * 16 + (← hexValue? d)

/-- The character that stands behind a backslash for another one. -/
def unescaped (c : Char) : Char :=
  match c with
  | 'b' => '\x08'
  | 'f' => '\x0c'
  | 'n' => '\n'
  | 'r' => '\r'
  | 't' => '\t'
  | c => c

/-- The rest of a string behind `before`, up to its closing quote.  A character beyond the first plane is written
as two halves. -/
def readString (before : List Char) : List Char → Option (String × List Char)
  | [] => none
  | '"' :: s => some (String.ofList before.reverse, s)
  | '\\' :: 'u' :: a :: b :: c :: d :: '\\' :: 'u' :: e :: f :: g :: h :: s => do
    let high ← hexNumber? a b c d
    let low ← hexNumber? e f g h
    if 0xD800 ≤ high ∧ high < 0xDC00 ∧ 0xDC00 ≤ low ∧ low < 0xE000 then
      readString (Char.ofNat (0x10000 + (high - 0xD800) * 0x400 + (low - 0xDC00)) :: before) s
    else
      readString (Char.ofNat high :: before) ('\\' :: 'u' :: e :: f :: g :: h :: s)
  | '\\' :: 'u' :: a :: b :: c :: d :: s => do
    readString (Char.ofNat (← hexNumber? a b c d) :: before) s
  | '\\' :: c :: s => readString (unescaped c :: before) s
  | c :: s => readString (c :: before) s
termination_by s => s.length

/-! ### Values -/

mutual

/-- A value at the front of a text; `fuel` bounds the nesting. -/
def readValue (fuel : Nat) (s : List Char) : Option (Json × List Char) :=
  match fuel with
  | 0 => none
  | fuel + 1 =>
    match skipBlanks s with
    | 'n' :: 'u' :: 'l' :: 'l' :: s => some (null, s)
    | 't' :: 'r' :: 'u' :: 'e' :: s => some (bool true, s)
    | 'f' :: 'a' :: 'l' :: 's' :: 'e' :: s => some (bool false, s)
    | '"' :: s => (readString [] s).map fun (t, s) => (string t, s)
    | '[' :: s =>
      match skipBlanks s with
      | ']' :: s => some (array [], s)
      | s => readItems fuel [] s
    | '{' :: s =>
      match skipBlanks s with
      | '}' :: s => some (object [], s)
      | s => readEntries fuel [] s
    | s =>
      let isPart (c : Char) : Bool := c.isDigit || ['-', '+', '.', 'e', 'E'].contains c
      match s.takeWhile isPart with
      | [] => none
      | text => some (number (String.ofList text), s.dropWhile isPart)
termination_by structural fuel

/-- The items of an array behind `before`. -/
def readItems (fuel : Nat) (before : List Json) (s : List Char) : Option (Json × List Char) :=
  match fuel with
  | 0 => none
  | fuel + 1 => do
    let (j, s) ← readValue fuel s
    match skipBlanks s with
    | ',' :: s => readItems fuel (j :: before) s
    | ']' :: s => return (array (j :: before).reverse, s)
    | _ => none
termination_by structural fuel

/-- The entries of an object behind `before`. -/
def readEntries (fuel : Nat) (before : List (String × Json)) (s : List Char) :
    Option (Json × List Char) :=
  match fuel with
  | 0 => none
  | fuel + 1 =>
    match skipBlanks s with
    | '"' :: s => do
      let (key, s) ← readString [] s
      match skipBlanks s with
      | ':' :: s =>
        let (j, s) ← readValue fuel s
        match skipBlanks s with
        | ',' :: s => readEntries fuel (put key j before) s
        | '}' :: s => return (object (put key j before), s)
        | _ => none
      | _ => none
    | _ => none
termination_by structural fuel

end

/-- The value that a text holds, and nothing else. -/
def parse? (text : String) : Option Json := do
  let s := text.toList
  let (j, rest) ← readValue (s.length + 1) s
  if skipBlanks rest = [] then return j else none

end EtlFlow.Json
