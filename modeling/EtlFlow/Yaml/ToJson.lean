import EtlFlow.Json
import EtlFlow.Yaml.Scalar
/-!
# YAML values as JSON

Nothing is lost.  A mapping, whose keys need not be strings, is an object around a list of pairs; a number that
is not whole is an object around its text, and a tagged value one of the tag and the value.
-/

namespace EtlFlow.Yaml.Value

mutual

/-- A value as JSON. -/
def json : Value → Json
  | .null => .null
  | .bool b => .bool b
  | .int n => .number (toString n)
  | .float x => .object [("float", .string (Scalar.realText x))]
  | .string s => .string s
  | .sequence items => .array (itemsJson items)
  | .mapping entries => .object [("map", .array (pairsJson entries))]
  | .tagged tag v => .object [("tag", .string tag), ("value", json v)]

/-- The items of a sequence as JSON. -/
def itemsJson : List Value → List Json
  | [] => []
  | v :: vs => json v :: itemsJson vs

/-- The entries of a mapping as pairs. -/
def pairsJson : Entries → List Json
  | [] => []
  | (k, v) :: es => .array [json k, json v] :: pairsJson es

end

end EtlFlow.Yaml.Value
