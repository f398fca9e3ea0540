import EtlFlow.Yaml.Scalar
/-!
# YAML values in messages

A value is shown with the name of its kind; strings are in quotes, with what cannot be printed escaped.
-/

namespace EtlFlow.Yaml

/-! ### Strings -/

/-- The character leaves no mark of its own: a control, a format or a private character, or a blank other than
the space. -/
def isUnprintable (c : Char) : Bool :=
  let n := c.toNat
  n < 32 || (0x7F ≤ n && n ≤ 0xA0) || n == 0xAD || n == 0x1680 || (0x2000 ≤ n && n ≤ 0x200F) ||
    (0x2028 ≤ n && n ≤ 0x202F) || (0x205F ≤ n && n ≤ 0x206F) || n == 0x3000 ||
    (0xE000 ≤ n && n ≤ 0xF8FF) || n == 0xFEFF || (0xFFF0 ≤ n && n ≤ 0xFFFB) || 0xE0000 ≤ n

/-- The character is a mark over the one before it. -/
def isCombining (c : Char) : Bool :=
  let n := c.toNat
  (0x300 ≤ n && n ≤ 0x36F) || (0x483 ≤ n && n ≤ 0x489) || (0x591 ≤ n && n ≤ 0x5BD) ||
    (0x64B ≤ n && n ≤ 0x65F) || (0x1AB0 ≤ n && n ≤ 0x1AFF) || (0x1DC0 ≤ n && n ≤ 0x1DFF) ||
    (0x20D0 ≤ n && n ≤ 0x20F0) || (0xFE00 ≤ n && n ≤ 0xFE0F) || (0xFE20 ≤ n && n ≤ 0xFE2F)

/-- A character inside quotes. -/
def shownChar (c : Char) : List Char :=
  match c with
  | '\x00' => ['\\', '0']
  | '\t' => ['\\', 't']
  | '\n' => ['\\', 'n']
  | '\r' => ['\\', 'r']
  | '"' => ['\\', '"']
  | '\\' => ['\\', '\\']
  | c =>
    if isUnprintable c || isCombining c then
      ['\\', 'u', '{'] ++ Nat.toDigits 16 c.toNat ++ ['}']
    else [c]

/-- A string in quotes. -/
def shownString (s : String) : String := "\"" ++ String.ofList (s.toList.flatMap shownChar) ++ "\""

/-! ### Values -/

namespace Value

mutual

/-- A value in a message. -/
def shown : Value → String
  | .null => "Null"
  | .bool b => "Bool(" ++ toString b ++ ")"
  | .int n => "Number(" ++ toString n ++ ")"
  | .float x => "Number(" ++ Scalar.realText x ++ ")"
  | .string s => "String(" ++ shownString s ++ ")"
  | .sequence items => "Sequence [" ++ ", ".intercalate (shownItems items) ++ "]"
  | .mapping entries => "Mapping \x7b" ++ ", ".intercalate (shownEntries entries) ++ "\x7d"
  | .tagged tag v => "TaggedValue \x7b tag: " ++ tag ++ ", value: " ++ shown v ++ " \x7d"

/-- The items of a sequence in a message. -/
def shownItems : List Value → List String
  | [] => []
  | v :: vs => shown v :: shownItems vs

/-- The entries of a mapping in a message.  Keys that are truth values, numbers or strings stand without the
name of their kind. -/
def shownEntries : List (Value × Value) → List String
  | [] => []
  | (.bool b, v) :: es => (toString b ++ ": " ++ shown v) :: shownEntries es
  | (.int n, v) :: es => (toString n ++ ": " ++ shown v) :: shownEntries es
  | (.float x, v) :: es => (Scalar.realText x ++ ": " ++ shown v) :: shownEntries es
  | (.string s, v) :: es => (shownString s ++ ": " ++ shown v) :: shownEntries es
  | (k, v) :: es => (shown k ++ ": " ++ shown v) :: shownEntries es

end

end Value

end EtlFlow.Yaml
