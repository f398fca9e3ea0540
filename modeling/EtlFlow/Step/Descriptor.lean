import EtlFlow.Step.Error
/-!
# Descriptions of steps

A step is described by a mapping.  Some keys mean the same in every step; the others are the arguments of
its kind.
-/

namespace EtlFlow.Step

open Yaml

/-- How a step names the nodes that it reads. -/
inductive InputSpec where
  | single (node : String)
  /-- Pairs of a node and the alias under which the step reads it. -/
  | renamed (aliases : List (String × String))
  deriving DecidableEq, Repr

/-- How the nodes that a step reads are written. -/
def InputSpec.decode : Decoder InputSpec :=
  Decode.either "InputNodeSpec" (fun v => .single <$> Decode.string v)
    (fun v => .renamed <$> Decode.present "a map" (Decode.sortedMap Decode.string) v)

/-- One name or several. -/
def decodeNames : Decoder (List String) :=
  Decode.either "OneOrMany" (fun v => (fun n => [n]) <$> Decode.string v)
    (Decode.present "a sequence" (Decode.list Decode.string))

/-- A step as it is described. -/
structure Descriptor where
  stepType : String
  name : Option String := none
  dependsOn : List String := []
  input : Option InputSpec := none
  inputPath : Option String := none
  maxRetries : Option Nat := none
  arguments : Value.Entries := []
  deriving Repr

namespace Descriptor

/-- Takes the value of a key out of the entries; null counts as missing. -/
def take {α : Type} (key : String) (d : Decoder α) : StateT Value.Entries (Except Error) (Option α) := do
  let entries ← get
  set (Value.remove (.string key) entries)
  match Value.get? (.string key) entries with
  | none | some .null => return none
  | some v =>
    match d v with
    | .ok a => return some a
    | .error e => throw (.input (.key key e))

/-- Takes the keys that mean the same in every step; what is left are the arguments. -/
def read : StateT Value.Entries (Except Error) Descriptor := do
  let some stepType ← take "step_type" Decode.string | throw (.input .noType)
  let dependsOn := (← take "depends_on" decodeNames).getD []
  let name ← take "name" Decode.string
  let input ← take "input_node" InputSpec.decode
  let inputPath ← take "input_path" Decode.string
  let maxRetries ← take "max_retries" (Decode.natural 32)
  return { stepType, name, dependsOn, input, inputPath, maxRetries, arguments := ← get }

/-- The step that a value describes. -/
def ofValue (v : Value) : Except Error Descriptor :=
  match v with
  | .mapping entries => (read.run entries).map (·.1)
  | _ => refuse .notMapping

/-- The arguments with defaults for what they do not give. -/
def withDefaults (arguments defaults : Value.Entries) : Value.Entries :=
  defaults.foldl (fun es (k, v) => if (Value.get? k es).isSome then es else es ++ [(k, v)]) arguments

end Descriptor

end EtlFlow.Step
