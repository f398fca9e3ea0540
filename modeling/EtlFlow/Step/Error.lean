import EtlFlow.Settings.Error
import EtlFlow.Text.Split
import EtlFlow.Warehouse.Error
import EtlFlow.Workflow.Frequency
import EtlFlow.Yaml.Describe
/-!
# Why a step cannot be expanded
-/

namespace EtlFlow.Step

/-- What is wrong with the description of a step. -/
inductive InputError where
  | arguments (cause : Yaml.DecodeError)
  | key (key : String) (cause : Yaml.DecodeError)
  | notMapping
  | noType
  | unknownType (stepType : String)
  | unregistered (stepType : String) (known : List String)
  | clashingType (stepType : String)
  | unknownBase (stepType base : String)
  | notExactlyOne (keys : List String)
  | noSource
  | notScalar (shown : String)
  | noFileName (path : String)
  | noRunner
  | noWarehouse
  | noCluster
  | noStoreInput
  | noStreamingInput
  | emptyStepString
  | notOneTime (frequency : Workflow.Frequency)
  | noLocalFile (path : String)
  | directoryUri (uri : String)
  | noDatabase (host : String)
  | noTableRead
  | insertMode (mode : String) (known : List String)
  | noPipelines
  | noStatements
  | scriptName
  | outputOfNone
  | noScriptDirectory (path : String)
  deriving DecidableEq, Repr

/-- The wording of what is wrong with the description of a step. -/
def InputError.message : InputError → String
  | arguments e => e.message
  | key k e => "key '" ++ k ++ "': " ++ e.message
  | notMapping => "a step must be a mapping"
  | noType => "step is missing 'step_type'"
  | unknownType t => "unknown step_type '" ++ t ++ "'"
  | unregistered t known =>
    "unknown step_type '" ++ t ++ "', expected one of " ++ ", ".intercalate known
  | clashingType t => "custom step '" ++ t ++ "' clashes with an existing step type"
  | unknownBase t base => "custom step '" ++ t ++ "' is based on unknown step type '" ++ base ++ "'"
  | notExactlyOne keys =>
    "exactly one of " ++ ", ".intercalate (keys.map fun k => "'" ++ k ++ "'") ++ " is required"
  | noSource => "exactly one of 'source' or 'sql' is required"
  | notScalar shown => "expected a scalar argument value, found " ++ shown
  | noFileName path => "'" ++ path ++ "' has no file name"
  | noRunner => "step has no resource to run on"
  | noWarehouse => "step needs the warehouse database"
  | noCluster => "step needs an EMR cluster"
  | noStoreInput => "step needs a single object-store input node"
  | noStreamingInput => "emr-streaming needs object-store input nodes"
  | emptyStepString => "step_string is empty"
  | notOneTime f =>
    "extract-local is only allowed in one-time pipelines, this one runs " ++ f.text
  | noLocalFile path => "local file '" ++ path ++ "' does not exist"
  | directoryUri uri => "file_uri '" ++ uri ++ "' names a directory"
  | noDatabase host => "no database given for host '" ++ host ++ "' in the step or the config"
  | noTableRead => "the extract query does not read from any table"
  | insertMode mode known =>
    "insert_mode '" ++ mode ++ "' is not one of " ++ ", ".intercalate known
  | noPipelines => "dependent_pipelines is empty"
  | noStatements => "the update SQL has no statements"
  | scriptName => "script_name is required with script_directory and only then"
  | outputOfNone => "output_node cannot be combined with no_output"
  | noScriptDirectory path => "script_directory '" ++ path ++ "' is not a directory"

/-- Why a step cannot be expanded. -/
inductive Error where
  | input (cause : InputError)
  | noPrimaryKey (purpose table : String)
  | sql (cause : Sql.Error)
  | warehouse (cause : Warehouse.Error)
  | settings (cause : Settings.Error)
  /-- What happened in the step of an id. -/
  | inStep (id : String) (cause : Error)
  deriving DecidableEq, Repr

namespace Error

/-- The words in front of what happened. -/
def title : Error → String
  | input _ => "invalid step input"
  | noPrimaryKey .. => "invalid table structure"
  | sql _ => "sql error"
  | warehouse _ => "catalog error"
  | settings _ => "config error"
  | inStep _ e => title e

/-- The wording of what happened. -/
def detail : Error → String
  | input e => e.message
  | noPrimaryKey purpose table => purpose ++ " needs a primary key but '" ++ table ++ "' has none"
  | sql e => e.message
  | warehouse e => e.message
  | settings e => e.message
  | inStep id e => Text.inContext ("step '" ++ id ++ "'") (detail e)

/-- The wording of an error. -/
def message (e : Error) : String := e.title ++ ": " ++ e.detail

end Error

/-- Refuses the description of a step. -/
def refuse {α : Type} (cause : InputError) : Except Error α := .error (.input cause)

/-- What must be there in the description of a step. -/
def demand {α : Type} (cause : InputError) : Option α → Except Error α
  | some a => .ok a
  | none => refuse cause

end EtlFlow.Step
