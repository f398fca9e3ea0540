import EtlFlow.Sorted
import EtlFlow.Yaml.Scalar
/-!
# Reading typed data out of YAML values

A decoder reads a value as something of a type.  A record is read by its fields: the entries of the mapping
are looked at in their own order, and only when all of them are well is a field found to be missing, in the
order of the fields.
-/

namespace EtlFlow.Yaml

/-! ### Errors -/

/-- Why a value does not hold the data that was expected. -/
inductive DecodeError where
  | unknownField (name : String) (known : List String)
  | missingField (name : String)
  | repeatedField (name : String)
  | invalidType (found expected : String)
  | invalidValue (found expected : String)
  | unknownVariant (name : String) (known : List String)
  | noVariant (type : String)
  deriving DecidableEq, Repr

namespace DecodeError

/-- The names to choose from. -/
def choice (what : String) : List String → String
  | [] => "there are no " ++ what
  | [a] => "expected `" ++ a ++ "`"
  | [a, b] => "expected `" ++ a ++ "` or `" ++ b ++ "`"
  | names => "expected one of " ++ ", ".intercalate (names.map fun n => "`" ++ n ++ "`")

/-- The wording of an error. -/
def message : DecodeError → String
  | unknownField name known => "unknown field `" ++ name ++ "`, " ++ choice "fields" known
  | missingField name => "missing field `" ++ name ++ "`"
  | repeatedField name => "duplicate field `" ++ name ++ "`"
  | invalidType found expected => "invalid type: " ++ found ++ ", expected " ++ expected
  | invalidValue found expected => "invalid value: " ++ found ++ ", expected " ++ expected
  | unknownVariant name known => "unknown variant `" ++ name ++ "`, " ++ choice "variants" known
  | noVariant type => "data did not match any variant of untagged enum " ++ type

end DecodeError

/-! ### Decoders -/

/-- A way to read a value as something of a type. -/
abbrev Decoder (α : Type) := Value → Except DecodeError α

namespace Decode

/-- What a value is, for a message. -/
def described : Value → String
  | .null => "unit value"
  | .bool b => "boolean `" ++ toString b ++ "`"
  | .int n => "integer `" ++ toString n ++ "`"
  | .float x => "floating point `" ++ Scalar.realText x ++ "`"
  | .string s => "string \"" ++ s ++ "\""
  | .sequence _ => "sequence"
  | .mapping _ => "map"
  | .tagged _ _ => "enum"

/-- The value is not of the expected type. -/
def mismatch {α : Type} (expected : String) (v : Value) : Except DecodeError α :=
  .error (.invalidType (described v) expected)

/-- Any value. -/
def raw : Decoder Value := .ok

/-- A string. -/
def string : Decoder String := fun v =>
  match v.untagged with
  | .string s => .ok s
  | v => mismatch "a string" v

/-- A truth value. -/
def bool : Decoder Bool := fun v =>
  match v.untagged with
  | .bool b => .ok b
  | v => mismatch "a boolean" v

/-- A whole number of at most `bits` binary digits. -/
def natural (bits : Nat) : Decoder Nat := fun v =>
  match v.untagged with
  | .int n =>
    if 0 ≤ n ∧ n.toNat < Nat.pow 2 bits then .ok n.toNat
    else .error (.invalidValue (described (.int n)) ("u" ++ toString bits))
  | v => mismatch ("u" ++ toString bits) v

/-- A number. -/
def real : Decoder Number.Real64 := fun v =>
  match v.untagged with
  | .int n => .ok (.ofInt n)
  | .float x => .ok x
  | v => mismatch "f64" v

/-- Null for none. -/
def optional {α : Type} (d : Decoder α) : Decoder (Option α) := fun v =>
  match v with
  | .null => .ok none
  | v => some <$> d v

/-- A sequence, null for an empty one. -/
def list {α : Type} (d : Decoder α) : Decoder (List α) := fun v =>
  match v.untagged with
  | .null => .ok []
  | .sequence items => items.mapM d
  | v => mismatch "a sequence" v

/-- The entries of a mapping, null for none. -/
def entries : Decoder Value.Entries := fun v =>
  match v.untagged with
  | .null => .ok []
  | .mapping es => .ok es
  | v => mismatch "a map" v

/-- A mapping from strings, sorted by them. -/
def sortedMap {α : Type} (d : Decoder α) : Decoder (List (String × α)) := fun v => do
  return Sorted.ofEntries (← (← entries v).mapM fun (k, v) => return (← string k, ← d v))

/-- A value that is not null. -/
def present {α : Type} (expected : String) (d : Decoder α) : Decoder α := fun v =>
  match v with
  | .null => mismatch expected v
  | v => d v

/-- One of two forms, the first one that fits. -/
def either {α : Type} (type : String) (first second : Decoder α) : Decoder α := fun v =>
  match first v with
  | .ok a => .ok a
  | .error _ => (second v).mapError fun _ => .noVariant type

/-- One of some words. -/
def word {α : Type} (words : List (String × α)) : Decoder α := fun v => do
  let name ← match v with
    | .string s => pure s
    | .tagged tag .null => pure (String.ofList (tag.toList.dropWhile (· == '!')))
    | v => mismatch "enum" v
  match words.lookup name with
  | some a => return a
  | none => throw (.unknownVariant name (words.map (·.1)))

end Decode

/-! ### Records -/

/-- How a record is read out of the entries of a mapping: the names of its fields, a check of the value
of one of them, and the record made from entries that passed. -/
structure Fields (α : Type) where
  names : List String
  check : String → Value → Except DecodeError Unit
  build : Value.Entries → Except DecodeError α

namespace Fields

instance : Applicative Fields where
  pure a := ⟨[], fun _ _ => .ok (), fun _ => .ok a⟩
  seq f g :=
    let g := g ()
    { names := f.names ++ g.names
      check := fun name v => do f.check name v; g.check name v
      build := fun es => return (← f.build es) (← g.build es) }

/-- A field that is `missing` where there is no entry for it. -/
def field {α : Type} (name : String) (d : Decoder α) (missing : Except DecodeError α) : Fields α where
  names := [name]
  check := fun n v => if n = name then (fun _ => ()) <$> d v else .ok ()
  build := fun es =>
    match es.find? fun (k, _) => k.string? == some name with
    | some (_, v) => d v
    | none => missing

/-- A field that must be there. -/
def required {α : Type} (name : String) (d : Decoder α) : Fields α :=
  field name d (.error (.missingField name))

/-- A field with a default. -/
def withDefault {α : Type} (name : String) (d : Decoder α) (default : α) : Fields α :=
  field name d (.ok default)

/-- A field that may be missing or null. -/
def optional {α : Type} (name : String) (d : Decoder α) : Fields (Option α) :=
  withDefault name (Decode.optional d) none

/-- Checks the entries in their order, behind the fields `seen`: no field comes twice, and in a strict record
each entry must be a field. -/
def checkEntries {α : Type} (fields : Fields α) (strict : Bool) (seen : List String) :
    Value.Entries → Except DecodeError Unit
  | [] => .ok ()
  | (k, v) :: es => do
    let name ← Decode.string k
    if fields.names.contains name then
      if seen.contains name then throw (.repeatedField name)
      fields.check name v
      fields.checkEntries strict (name :: seen) es
    else if strict then throw (.unknownField name fields.names)
    else fields.checkEntries strict seen es

/-- Reads a record from entries. -/
def decodeEntries {α : Type} (fields : Fields α) (strict : Bool) (es : Value.Entries) :
    Except DecodeError α := do
  fields.checkEntries strict [] es
  fields.build es

/-- Reads a record whose mapping may hold other entries too. -/
def decode {α : Type} (fields : Fields α) : Decoder α := fun v => do
  fields.decodeEntries false (← Decode.entries v)

/-- Reads a record whose mapping holds no other entries. -/
def decodeStrict {α : Type} (fields : Fields α) : Decoder α := fun v => do
  fields.decodeEntries true (← Decode.entries v)

/-- The names of a record are those of its fields. -/
@[simp]
theorem names_seq {α β : Type} (f : Fields (α → β)) (g : Fields α) :
    (f <*> g).names = f.names ++ g.names := rfl

end Fields

end EtlFlow.Yaml
