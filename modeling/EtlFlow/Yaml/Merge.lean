import EtlFlow.Yaml.Value
/-!
# Laying one value over another

Where both values are mappings, they are merged key by key; anywhere else the upper value wins.  Keys
keep their places, and new keys follow in their own order.
-/

namespace EtlFlow.Yaml.Value

mutual

/-- The value `top` laid over the value `base`. -/
def merge (base top : Value) : Value :=
  match top with
  | .mapping upper =>
    match base with
    | .mapping lower => .mapping (mergeEntries lower upper)
    | _ => .mapping upper
  | top => top

/-- The entries `upper` laid over the entries `lower`, one after the other. -/
def mergeEntries (lower : Entries) : Entries → Entries
  | [] => lower
  | (k, v) :: es =>
    let merged := match get? k lower with
      | some old => merge old v
      | none => v
    mergeEntries (put k merged lower) es

end

end EtlFlow.Yaml.Value
