import EtlFlow.Sequence
import EtlFlow.Yaml.Decode
import EtlFlow.Yaml.Document
/-!
# Data as it is written

A record is read from the nodes of a document, so that a scalar counts as the text that it is written with:
`5` is the text of one digit where a text is expected.
-/

namespace EtlFlow.Yaml

/-- Why a document does not hold the data that was expected. -/
inductive ReadError where
  | notYaml (cause : SyntaxError)
  | decode (cause : DecodeError)
  deriving DecidableEq, Repr

namespace Node

/-- A way to read a node as something of a type. -/
abbrev Read (α : Type) := Node → Except ReadError α

/-- The word for what a node is. -/
def described : Node → String
  | .scalar .. => "string"
  | .sequence .. => "sequence"
  | .mapping .. => "map"

/-- The node is not of the expected type. -/
def mismatch {α : Type} (expected : String) : Read α := fun n =>
  .error (.decode (.invalidType n.described expected))

/-- Nothing is written. -/
def isBlank : Node → Bool
  | .scalar text plain _ => plain && text == ""
  | _ => false

/-- Nothing is written, or a word for null. -/
def isNull : Node → Bool
  | .scalar text plain none => plain && (text == "" || Scalar.isNull text)
  | .scalar text plain (some tag) => plain && tag == coreTag "null" && Scalar.isNull text
  | _ => false

/-! ### Nodes -/

/-- The text that a scalar is written with. -/
def text : Read String
  | .scalar text _ _ => .ok text
  | n => mismatch "a string" n

/-- The value of a node. -/
def value : Read Value := fun n => (Value.ofNode n).mapError .notYaml

/-- What a decoder reads in the value of a node. -/
def decoded {α : Type} (d : Decoder α) : Read α := fun n => do
  (d (← n.value)).mapError .decode

/-- One of some words. -/
def word {α : Type} (words : List (String × α)) : Read α := fun n => do
  (Decode.word words (.string (← n.text))).mapError .decode

/-- A sequence, where nothing stands for an empty one. -/
def list {α : Type} (read : Read α) : Read (List α)
  | .sequence items _ => items.mapM read
  | n => if n.isBlank then .ok [] else mismatch "a sequence" n

/-! ### Records -/

/-- The entries of a mapping, where nothing stands for an empty one. -/
def entries : Read (List (Node × Node))
  | .mapping entries _ => .ok entries
  | n => if n.isBlank then .ok [] else mismatch "a map" n

/-- The fields of a record with the given names, of which none may come twice. -/
def fields (names : List String) : Read (List (String × Node)) := fun n => do
  let fs ← (← n.entries).mapM fun (k, v) => return (← k.text, v)
  if let some (name, _) := fs.find? fun (name, _) => !names.contains name then
    throw (.decode (.unknownField name names))
  if let some name := Sequence.repeated? (fs.map (·.1)) then
    throw (.decode (.repeatedField name))
  return fs

/-- A field that must be there. -/
def required {α : Type} (fs : List (String × Node)) (name : String) (read : Read α) :
    Except ReadError α :=
  match fs.lookup name with
  | some n => read n
  | none => .error (.decode (.missingField name))

/-- A field with a default. -/
def withDefault {α : Type} (fs : List (String × Node)) (name : String) (read : Read α)
    (default : α) : Except ReadError α :=
  match fs.lookup name with
  | some n => read n
  | none => .ok default

/-- A field that may be missing or null. -/
def optional {α : Type} (fs : List (String × Node)) (name : String) (read : Read α) :
    Except ReadError (Option α) :=
  withDefault fs name (fun n => if n.isNull then .ok none else some <$> read n) none

end Node

end EtlFlow.Yaml
