import EtlFlow.Step.Check
import EtlFlow.Step.Cluster
import EtlFlow.Step.Composite
import EtlFlow.Step.Extract
import EtlFlow.Step.Kind
import EtlFlow.Step.Load
import EtlFlow.Step.Sql
import EtlFlow.Step.Transform
/-!
# Expanding steps
-/

namespace EtlFlow.Step

open Yaml (Value Fields)

/-- Expands with the arguments that entries hold. -/
def expandWith {α : Type} (fields : Fields α) (expand : Context → α → Except Error Expansion)
    (entries : Value.Entries) (c : Context) : Except Error Expansion := do
  expand c (← readArguments fields entries)

/-- What the steps of a kind expand to. -/
def Kind.expand : Kind → Value.Entries → Context → Except Error Expansion
  | extractLocal => expandWith localFields Step.extractLocal
  | extractS3 => expandWith StoreArguments.fields extractStore
  | extractRds => expandWith DatabaseArguments.fields (extractDatabase .mysql)
  | extractPostgres => expandWith DatabaseArguments.fields (extractDatabase .postgres)
  | extractRedshift => expandWith TableArguments.fields Step.extractRedshift
  | transform => expandWith TransformArguments.fields Step.transform
  | emrStreaming => expandWith StreamingArguments.fields Step.emrStreaming
  | emrStep => expandWith jobFields Step.emrStep
  | sqlCommand => expandWith SqlArguments.fields Step.sqlCommand
  | loadRedshift => expandWith CopyArguments.fields Step.loadRedshift
  | createLoadRedshift => expandWith CreateLoadArguments.fields Step.createLoadRedshift
  | upsert => expandWith UpsertArguments.fields Step.upsert
  | reload => expandWith ReloadArguments.fields Step.reload
  | createUpdateSql => expandWith RefreshArguments.fields Step.createUpdateSql
  | primaryKeyCheck => expandWith KeyCheckArguments.fields Step.primaryKeyCheck
  | countCheck => expandWith CountCheckArguments.fields Step.countCheck
  | columnCheck => expandWith ColumnCheckArguments.fields Step.columnCheck
  | pipelineDependencies => expandWith WaitArguments.fields Step.pipelineDependencies
  | loadReloadPk => expandWith LoadReloadArguments.fields Step.loadReloadPk
  | safeCreateLoad => expandWith SafeLoadArguments.fields Step.safeCreateLoad

/-- What a step expands to; an error names the step. -/
def expand (kind : Kind) (arguments : Value.Entries) (c : Context) : Except Error Expansion :=
  (kind.expand arguments c).mapError (.inStep c.id)

end EtlFlow.Step
