import EtlFlow.Step.Executor
import EtlFlow.Warehouse.Merge
/-!
# Steps of several activities
-/

namespace EtlFlow.Step

open Yaml Workflow

/-- Activities that run one after the other. -/
def chain : List Activity → List Activity
  | [] => []
  | [a] => [a]
  | a :: b :: as => a :: chain (b.addDependency a.id :: as)
termination_by as => as.length

/-- Activities that run one after the other, as an expansion. -/
def chained (as : List Activity) : Expansion := (chain as).foldl .addActivity {}

/-! ### Load, reload and check -/

/-- The arguments for loading a table through another one. -/
structure LoadReloadArguments where
  staging : String
  production : String
  options : LoaderOptions
  analyze : Bool
  check : CheckOptions

/-- How they are written. -/
def LoadReloadArguments.fields : Fields LoadReloadArguments :=
  LoadReloadArguments.mk <$> .required "staging_table_definition" Decode.string
    <*> .required "production_table_definition" Decode.string
    <*> LoaderOptions.fields
    <*> .withDefault "analyze_table" Decode.bool true
    <*> CheckOptions.fields

/-- Loads the input into a staging table, reloads production from it, and checks production's primary key. -/
def loadReloadPk (c : Context) (a : LoadReloadArguments) : Except Error Expansion := do
  let staging ← c.readTable a.staging
  let production ← c.readTable a.production
  requirePrimaryKey production "load-reload-pk"
  let input ← c.requireStore
  let load ← loadTable c "Load" staging input a.options
  let commands ← (production.reload (.ofTable staging)).mapError .warehouse
  let reload ← runScript c "Reload" production (Warehouse.Command.script commands).inTransaction
    a.analyze false
  let check ← checkPrimaryKey c "PrimaryKeyCheck" production a.check
  return chained [load, reload, check]

/-! ### Load beside and swap -/

/-- The arguments for loading a table beside the one that is in use. -/
structure SafeLoadArguments where
  definition : String
  options : LoaderOptions
  analyze : Bool

/-- How they are written. -/
def SafeLoadArguments.fields : Fields SafeLoadArguments :=
  SafeLoadArguments.mk <$> .required "table_definition" Decode.string
    <*> LoaderOptions.fields
    <*> .withDefault "analyze_table" Decode.bool true

/-- The name of the table that is loaded beside another one. -/
def stagingName (t : Warehouse.Table) : String := t.fullName ++ "_staging"

/-- Creates a staging table anew, loads the input into it, and moves its rows into the destination. -/
def safeCreateLoad (c : Context) (a : SafeLoadArguments) : Except Error Expansion := do
  let destination ← c.readTable a.definition
  requirePrimaryKey destination "safe-create-load"
  let staging ← (destination.renamed (stagingName destination)).mapError .warehouse
  let input ← c.requireStore
  let relation := Warehouse.Relation.table staging
  let create ← runScript c "CreateStaging" staging
    (relation.recreateScript c.settings.permissions) false false
  let load ← loadTable c "Load" staging input a.options
  let commands ← (destination.reload (.ofTable staging)).mapError .warehouse
  let swap ← runScript c "Swap" destination
    (Warehouse.Command.script commands ++ relation.dropScript).inTransaction a.analyze false
  return chained [create, load, swap]

end EtlFlow.Step
