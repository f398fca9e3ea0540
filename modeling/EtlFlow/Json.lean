/-!
# JSON values

A number is kept as it is written, and an object keeps its entries in their order.
-/

namespace EtlFlow

/-- A JSON value. -/
inductive Json where
  | null
  | bool (b : Bool)
  | number (text : String)
  | string (s : String)
  | array (items : List Json)
  | object (entries : List (String × Json))
  deriving Inhabited, Repr

namespace Json

/-- Entries with a value for a key: in the place of the old one, or at the end. -/
def put (key : String) (value : Json) : List (String × Json) → List (String × Json)
  | [] => [(key, value)]
  | (k, v) :: es => if k = key then (key, value) :: es else (k, v) :: put key value es

/-- The value of a key. -/
def get? (key : String) : Json → Option Json
  | object es => es.lookup key
  | _ => none

/-- A whole number. -/
def ofNat (n : Nat) : Json := number (toString n)

/-- What is stored under a key can be read there. -/
@[simp]
theorem lookup_put (key : String) (value : Json) (es : List (String × Json)) :
    (put key value es).lookup key = some value := by
  induction es with
  | nil => simp [put]
  | cons e es ih =>
    obtain ⟨k, v⟩ := e
    unfold put
    split
    · simp
    · rename_i h
      have : (key == k) = false := by simpa using Ne.symm h
      simp [List.lookup_cons, this, ih]

end Json

end EtlFlow
