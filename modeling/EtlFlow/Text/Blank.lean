/-!
# Blanks

The characters of the Unicode property White_Space, and trimming by them.  A trimmed text
neither starts nor ends with a blank, and a text that does neither is left as it is.
-/

namespace EtlFlow.Text

/-- The Unicode property White_Space. -/
def isBlank (c : Char) : Bool :=
  let n := c.toNat
  (9 ≤ n && n ≤ 13) || n == 32 || n == 0x85 || n == 0xA0 || n == 0x1680 ||
    (0x2000 ≤ n && n ≤ 0x200A) || n == 0x2028 || n == 0x2029 || n == 0x202F || n == 0x205F ||
    n == 0x3000

/-- The blanks of ASCII are the space and the five characters from tab to carriage return. -/
example : (List.range 128).filter (fun n => isBlank (Char.ofNat n)) = [9, 10, 11, 12, 13, 32] := by
  decide

/-! ### Trimming -/

/-- The text from its first character that is no blank. -/
def trimStart (s : List Char) : List Char := s.dropWhile isBlank

/-- The text up to its last character that is no blank. -/
def trimEnd (s : List Char) : List Char := (s.reverse.dropWhile isBlank).reverse

/-- The text without the blanks around it. -/
def trim (s : List Char) : List Char := trimEnd (trimStart s)

/-- `trim` on a string. -/
def trimmed (s : String) : String := String.ofList (trim s.toList)

/-- The pieces between runs of blanks, none of them empty. -/
def words (s : List Char) : List (List Char) :=
  (s.splitOnP isBlank).filter (· ≠ [])

end EtlFlow.Text
