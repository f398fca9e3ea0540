import EtlFlow.Step.Arguments
/-!
# Steps of a cluster

A cluster takes a job as one text: the arguments with commas between them, where a comma inside an argument
has two backslashes before it.
-/

namespace EtlFlow.Step

open Yaml Workflow

/-! ### Job texts -/

/-- An argument inside a job text. -/
def escapeCommas (s : String) : String := Text.replaceChar ',' "\\\\," s

/-- The text of a job. -/
def jobText (arguments : List String) : String := ",".intercalate (arguments.map escapeCommas)

/-! ### Streaming -/

/-- The program that runs streaming jobs. -/
def streamingProgram : String := "/home/hadoop/contrib/streaming/hadoop-streaming.jar"

/-- The arguments of a streaming job. -/
structure StreamingArguments where
  mapper : String
  reducer : Option String
  parameters : Option String

/-- How they are written. -/
def StreamingArguments.fields : Fields StreamingArguments :=
  StreamingArguments.mk <$> .required "mapper" Decode.string
    <*> .optional "reducer" Decode.string
    <*> .optional "hadoop_params" Decode.string

/-- The arguments that name the scripts of a job.  Later images copy the files first and take their names. -/
def scriptArguments (series : Nat) (mapper : Storage.Location) (reducer : Option Storage.Location) :
    List String :=
  let name (text : Storage.Location → String) := ((reducer.map text).getD "NONE")
  if 2 ≤ series then
    ["-files", ",".intercalate ((mapper :: reducer.toList).map (·.uri)), "-mapper", mapper.baseName,
      "-reducer", name (·.baseName)]
  else ["-mapper", mapper.uri, "-reducer", name (·.uri)]

/-- All arguments of a streaming job. -/
def streamingJob (series : Nat) (parameters : Option String) (mapper : Storage.Location)
    (reducer : Option Storage.Location) (inputs : List Storage.Location) (output : Storage.Location) :
    List String :=
  streamingProgram :: (Text.words (parameters.getD "").toList).map String.ofList ++
    scriptArguments series mapper reducer ++ inputs.flatMap (fun l => ["-input", l.uri]) ++
    ["-output", output.uri]

/-- A file that is staged under its own name. -/
def stageFile (c : Context) (path : String) : Except Error Artifact := do
  let file := c.resolve path
  return ⟨c.paths.source.joinFile (← fileName file), .file file⟩

/-- Runs a streaming job over the inputs of the step. -/
def emrStreaming (c : Context) (a : StreamingArguments) : Except Error Expansion := do
  let series ← c.requireCluster
  let inputs := c.input.refs
  if inputs = [] ∨ inputs.any (·.path.isNone) then throw (.input .noStreamingInput)
  let mapper ← stageFile c a.mapper
  let reducer ← a.reducer.mapM (stageFile c)
  let output := c.store "Output" (c.paths.data.joinDirectory "output")
  let job := streamingJob series a.parameters mapper.destination (reducer.map (·.destination))
    (inputs.filterMap (·.path)) output.path
  let run ← c.activity "" (.emr [jobText job])
  let nodes : Expansion := {
    objects := [.store output]
    output := .single (.ofStore output)
    artifacts := mapper :: reducer.toList }
  return nodes.addActivity ((run.withInputs (inputs.map (·.id))).withOutput output.id)

/-! ### Other jobs -/

/-- How the arguments of a job that is given as text are written. -/
def jobFields : Fields String := .required "step_string" Decode.string

/-- Runs a job that is given as text. -/
def emrStep (c : Context) (job : String) : Except Error Expansion := do
  let _ ← c.requireCluster
  if Text.trimmed job = "" then throw (.input .emptyStepString)
  let run ← c.activity "" (.emr [job])
  return ({} : Expansion).addActivity (run.withInputs c.input.ids)

end EtlFlow.Step
