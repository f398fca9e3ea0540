import EtlFlow.Json
import EtlFlow.Yaml.Scalar
/-!
# JSON values as YAML values
-/

namespace EtlFlow.Yaml.Value

/-- The value of a JSON number: whole unless it has a fraction, an exponent, or no whole value of its size. -/
def ofNumber (text : String) : Value :=
  let written := text.toList
  let whole := if written.any ['.', 'e', 'E'].contains ∨ text = "-0" then none
    else (Scalar.integer? written).filter fun n => Scalar.minInt ≤ n ∧ n ≤ Scalar.maxInt
  match whole with
  | some n => .int n
  | none => .float ((Number.Real64.read? written).getD .nan)

mutual

/-- A JSON value as a YAML value. -/
def ofJson : Json → Value
  | .null => .null
  | .bool b => .bool b
  | .number text => ofNumber text
  | .string s => .string s
  | .array items => .sequence (ofJsonItems items)
  | .object entries => .mapping (ofJsonEntries entries)

/-- The items of an array as those of a sequence. -/
def ofJsonItems : List Json → List Value
  | [] => []
  | j :: js => ofJson j :: ofJsonItems js

/-- The entries of an object as those of a mapping. -/
def ofJsonEntries : List (String × Json) → Entries
  | [] => []
  | (k, j) :: es => (.string k, ofJson j) :: ofJsonEntries es

end

end EtlFlow.Yaml.Value
