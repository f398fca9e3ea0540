import EtlFlow.Step.Arguments
/-!
# Steps that run a command

A command reads its inputs from directories that the machine stages for it, one for each input node by position,
and writes its outputs to such directories.  A launcher makes the files of a staged script directory executable
and runs one of them.
-/

namespace EtlFlow.Step

open Yaml Workflow

/-! ### Launchers -/

/-- The variable that holds the directory of the input at a position. -/
def stagingVariable (position : Nat) : String :=
  "$\x7bINPUT" ++ toString position ++ "_STAGING_DIR\x7d"

/-- The launcher of a script in the directory that is the input at a position. -/
def launcher (position : Nat) (script : String) : String :=
  "#!/usr/bin/env bash\nset -euo pipefail\nSCRIPT_DIR=\"" ++ stagingVariable position ++
    "\"\nchmod -R +x \"$SCRIPT_DIR\"\nexec \"$SCRIPT_DIR/" ++ script ++ "\" \"$@\"\n"

/-! ### Arguments -/

/-- An argument of a script: a text as it is, or names with values. -/
inductive ScriptArgument where
  | plain (s : String)
  | pairs (values : List (String × Value))
  deriving Repr

/-- How an argument of a script is written. -/
def ScriptArgument.decode : Decoder ScriptArgument :=
  Decode.either "ScriptArgument" (fun v => .plain <$> Decode.string v)
    (fun v => .pairs <$> Decode.present "a map" (Decode.sortedMap Decode.raw) v)

/-- The arguments that the command gets. -/
def ScriptArgument.texts : ScriptArgument → Except Error (List String)
  | plain s => .ok [s]
  | pairs values => values.mapM fun (key, v) => return option key (← scalarText v)

/-- The arguments of a step that runs a command. -/
structure TransformArguments where
  command : Option String
  script : Option String
  directory : Option String
  scriptName : Option String
  arguments : List ScriptArgument
  outputs : Option (List String)
  noInput : Bool
  noOutput : Bool

namespace TransformArguments

/-- How they are written. -/
def fields : Fields TransformArguments :=
  TransformArguments.mk <$> .optional "command" Decode.string
    <*> .optional "script" Decode.string
    <*> .optional "script_directory" Decode.string
    <*> .optional "script_name" Decode.string
    <*> .withDefault "script_arguments" (Decode.list ScriptArgument.decode) []
    <*> .optional "output_node" (Decode.list Decode.string)
    <*> .withDefault "no_input" Decode.bool false
    <*> .withDefault "no_output" Decode.bool false

/-- The arguments fit together. -/
def check (a : TransformArguments) : Except Error Unit := do
  exactlyOne [("command", a.command.isSome), ("script", a.script.isSome),
    ("script_directory", a.directory.isSome)]
  if a.directory.isSome ≠ a.scriptName.isSome then throw (.input .scriptName)
  if a.noOutput ∧ a.outputs.isSome then throw (.input .outputOfNone)

/-- The nodes that the command reads. -/
def inputs (a : TransformArguments) (c : Context) : List NodeRef := if a.noInput then [] else c.input.refs

/-- The arguments that tell the command where its named inputs are staged. -/
def inputArguments (a : TransformArguments) (c : Context) : List String :=
  match a.noInput, c.input with
  | false, .named nodes =>
    nodes.zipIdx.map fun ((name, _), i) => option name (stagingVariable (i + 1))
  | _, _ => []

end TransformArguments

/-- What a command needs: the command itself, the node of its script directory, and what is staged. -/
structure CommandParts where
  shell : ShellCommand
  directory : Option StoreNode := none
  artifacts : List Artifact := []

/-- A script directory, run by a launcher.  It is the input at the position behind the `inputs` others. -/
def directoryParts (c : Context) (inputs : Nat) (path script : String) : Except Error CommandParts := do
  let place := c.resolve path
  if !c.files.isDirectory place then throw (.input (.noScriptDirectory place))
  let target := c.paths.source.joinDirectory (← fileName place)
  let start := c.paths.source.joinFile "launcher.sh"
  return {
    shell := { script := some start }
    directory := some (c.store "ScriptDirectory" target)
    artifacts := [⟨target, .directory place⟩, ⟨start, .text (launcher (inputs + 1) script)⟩] }

/-- The parts of the command that the arguments name. -/
def TransformArguments.parts (a : TransformArguments) (c : Context) : Except Error CommandParts := do
  match a.command, a.script with
  | some command, _ => return { shell := { command := some command } }
  | none, some script =>
    let file := c.resolve script
    let target := c.paths.source.joinFile (← fileName file)
    return { shell := { script := some target }, artifacts := [⟨target, .file file⟩] }
  | none, none =>
    directoryParts c (a.inputs c).length (a.directory.getD "") (a.scriptName.getD "")

/-- The nodes that the command writes, and how later steps see them. -/
def TransformArguments.outputNodes (a : TransformArguments) (c : Context) : List StoreNode × Nodes :=
  if a.noOutput then ([], .none)
  else
    match a.outputs with
    | none =>
      let node := c.store "Output" (c.paths.data.joinDirectory "output")
      ([node], .single (.ofStore node))
    | some names =>
      let nodes := names.map fun n => (n, c.store ("_" ++ n) (c.paths.data.joinDirectory n))
      (nodes.map (·.2), .named (Sorted.ofEntries (nodes.map fun (n, s) => (n, .ofStore s))))

/-- Runs a command. -/
def transform (c : Context) (a : TransformArguments) : Except Error Expansion := do
  a.check
  let given ← a.arguments.mapM (·.texts)
  let parts ← a.parts c
  let shell := { parts.shell with arguments := a.inputArguments c ++ given.flatten }
  let run ← c.activity "" (.shell shell)
  let (outputs, output) := a.outputNodes c
  let inputs := (a.inputs c).map (·.id) ++ parts.directory.toList.map (·.id)
  let nodes : Expansion := {
    objects := (parts.directory.toList ++ outputs).map .store
    output
    artifacts := parts.artifacts }
  return nodes.addActivity ((outputs.map (·.id)).foldl Activity.withOutput (run.withInputs inputs))

end EtlFlow.Step
