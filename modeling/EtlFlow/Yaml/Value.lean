import EtlFlow.Number.Real64
/-!
# YAML values

A value is null, a truth value, a number, a string, a sequence, a mapping or a tagged value.  A mapping
keeps its entries in order; its keys are values, compared by `Value.same`.
-/

namespace EtlFlow.Yaml

open Number (Real64)

/-- A value of a YAML document. -/
inductive Value where
  | null
  | bool (b : Bool)
  | int (n : Int)
  | float (x : Real64)
  | string (s : String)
  | sequence (items : List Value)
  | mapping (entries : List (Value × Value))
  | tagged (tag : String) (value : Value)
  deriving Inhabited, Repr

namespace Value

/-! ### Equality -/

mutual

/-- Equality of values.  Numbers are equal when they are of one kind and have one value, mappings when
they have the same entries in any order. -/
def same : Value → Value → Bool
  | .null, .null => true
  | .bool a, .bool b => a == b
  | .int a, .int b => a == b
  | .float a, .float b => a.same b
  | .string a, .string b => a == b
  | .sequence a, .sequence b => sameItems a b
  | .mapping a, .mapping b => a.length == b.length && sameEntries a b
  | .tagged t a, .tagged u b => t == u && same a b
  | _, _ => false

/-- Equality of sequences, item by item. -/
def sameItems : List Value → List Value → Bool
  | [], [] => true
  | a :: as, b :: bs => same a b && sameItems as bs
  | _, _ => false

/-- Every entry of the first list is in the second. -/
def sameEntries : List (Value × Value) → List (Value × Value) → Bool
  | [], _ => true
  | (k, v) :: es, fs => (fs.any fun (k', v') => same k k' && same v v') && sameEntries es fs

end

/-! ### Entries of a mapping -/

/-- The entries of a mapping. -/
abbrev Entries := List (Value × Value)

/-- The value of a key. -/
def get? (key : Value) : Entries → Option Value
  | [] => none
  | (k, v) :: es => if same k key then some v else get? key es

/-- The entries with a value for a key: in the place of the old one, or at the end. -/
def put (key value : Value) : Entries → Entries
  | [] => [(key, value)]
  | (k, v) :: es => if same k key then (k, value) :: es else (k, v) :: put key value es

/-- The entries without a key; the last entry moves into its place. -/
def remove (key : Value) (es : Entries) : Entries :=
  match es.findIdx? fun (k, _) => same k key with
  | none => es
  | some i =>
    match es.getLast? with
    | none => es
    | some last => (es.set i last).dropLast

/-! ### Looking through tags -/

/-- The value under its tags. -/
def untagged : Value → Value
  | .tagged _ v => untagged v
  | v => v

/-- The string that a value is, under its tags. -/
def string? (v : Value) : Option String :=
  match v.untagged with
  | .string s => some s
  | _ => none

/-- The entries of the mapping that a value is, under its tags. -/
def entries? (v : Value) : Option Entries :=
  match v.untagged with
  | .mapping es => some es
  | _ => none

/-- The value is null, under its tags. -/
def isNull (v : Value) : Bool :=
  match v.untagged with
  | .null => true
  | _ => false

end Value

end EtlFlow.Yaml
