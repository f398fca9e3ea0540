import EtlFlow.Step.Executor
/-!
# Steps that load a table
-/

namespace EtlFlow.Step

open Yaml Workflow

/-! ### Copying -/

/-- What rows may do to the rows that are there. -/
def insertModes : List String := ["KEEP_EXISTING", "OVERWRITE_EXISTING", "TRUNCATE", "APPEND"]

/-- The arguments for copying into a table. -/
structure CopyArguments where
  schema : String
  table : String
  insertMode : String
  maxErrors : Option Nat
  replaceInvalid : Option String
  gzip : Bool

namespace CopyArguments

/-- How they are written. -/
def fields : Fields CopyArguments :=
  CopyArguments.mk <$> .required "schema" Decode.string
    <*> .required "table" Decode.string
    <*> .withDefault "insert_mode" Decode.string "TRUNCATE"
    <*> .optional "max_errors" (Decode.natural 32)
    <*> .optional "replace_invalid_char" Decode.string
    <*> .withDefault "gzip" Decode.bool false

/-- The options of the command that copies. -/
def options (a : CopyArguments) : List String :=
  ["DELIMITER '\\t'", "ESCAPE", "TRUNCATECOLUMNS", "NULL AS 'NULL'"] ++
    a.maxErrors.toList.map (fun n => "MAXERROR " ++ toString n) ++
    a.replaceInvalid.toList.map (fun c => "ACCEPTINVCHARS AS '" ++ c ++ "'") ++
    if a.gzip then ["GZIP"] else []

end CopyArguments

/-- Copies the input of the step into a table of the warehouse. -/
def loadRedshift (c : Context) (a : CopyArguments) : Except Error Expansion := do
  let mode := Text.upperAscii a.insertMode
  if mode ∉ insertModes then throw (.input (.insertMode a.insertMode insertModes))
  let (input, _) ← c.requireStore
  let table : TableNode :=
    ⟨c.sub "Table", c.schedule, ← c.requireWarehouse, a.schema ++ "." ++ a.table⟩
  let copy ← c.activity "" (.load mode a.options)
  let nodes : Expansion := { objects := [.table table], output := .single ⟨table.id, none⟩ }
  return nodes.addActivity ((copy.withInputs [input]).withOutput table.id)

/-! ### Creating and loading -/

/-- The arguments for creating and loading a table. -/
structure CreateLoadArguments where
  definition : String
  options : LoaderOptions

/-- How they are written. -/
def CreateLoadArguments.fields : Fields CreateLoadArguments :=
  CreateLoadArguments.mk <$> .required "table_definition" Decode.string <*> LoaderOptions.fields

/-- Creates a table where it is missing and loads the input of the step into it. -/
def createLoadRedshift (c : Context) (a : CreateLoadArguments) : Except Error Expansion := do
  let table ← c.readTable a.definition
  let input ← c.requireStore
  return ({} : Expansion).addActivity (← loadTable c "" table input a.options)

end EtlFlow.Step
