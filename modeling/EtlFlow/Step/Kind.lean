/-!
# Kinds of steps
-/

namespace EtlFlow.Step

/-- The machine that a step needs. -/
inductive Machine where
  | ec2
  | emr
  | none
  deriving DecidableEq, Repr

/-- A kind of step. -/
inductive Kind where
  | extractLocal
  | extractS3
  | extractRds
  | extractPostgres
  | extractRedshift
  | transform
  | emrStreaming
  | emrStep
  | sqlCommand
  | loadRedshift
  | createLoadRedshift
  | upsert
  | reload
  | createUpdateSql
  | primaryKeyCheck
  | countCheck
  | columnCheck
  | pipelineDependencies
  | loadReloadPk
  | safeCreateLoad
  deriving DecidableEq, Repr

namespace Kind

/-- All kinds of steps. -/
def all : List Kind := [
  extractLocal, extractS3, extractRds, extractPostgres, extractRedshift, transform, emrStreaming,
  emrStep, sqlCommand, loadRedshift, createLoadRedshift, upsert, reload, createUpdateSql,
  primaryKeyCheck, countCheck, columnCheck, pipelineDependencies, loadReloadPk, safeCreateLoad]

theorem mem_all (k : Kind) : k ∈ all := by
  cases k <;> decide

/-- The word for a kind in pipeline definitions. -/
def text : Kind → String
  | extractLocal => "extract-local"
  | extractS3 => "extract-s3"
  | extractRds => "extract-rds"
  | extractPostgres => "extract-postgres"
  | extractRedshift => "extract-redshift"
  | transform => "transform"
  | emrStreaming => "emr-streaming"
  | emrStep => "emr-step"
  | sqlCommand => "sql-command"
  | loadRedshift => "load-redshift"
  | createLoadRedshift => "create-load-redshift"
  | upsert => "upsert"
  | reload => "reload"
  | createUpdateSql => "create-update-sql"
  | primaryKeyCheck => "primary-key-check"
  | countCheck => "count-check"
  | columnCheck => "column-check"
  | pipelineDependencies => "pipeline-dependencies"
  | loadReloadPk => "load-reload-pk"
  | safeCreateLoad => "safe-create-load"

/-- The start of the id of a step without a name. -/
def idStart : Kind → String
  | extractLocal => "ExtractLocalStep"
  | extractS3 => "ExtractS3Step"
  | extractRds => "ExtractRdsStep"
  | extractPostgres => "ExtractPostgresStep"
  | extractRedshift => "ExtractRedshiftStep"
  | transform => "TransformStep"
  | emrStreaming => "EmrStreamingStep"
  | emrStep => "EmrJobStep"
  | sqlCommand => "SqlCommandStep"
  | loadRedshift => "LoadRedshiftStep"
  | createLoadRedshift => "CreateLoadRedshiftStep"
  | upsert => "UpsertStep"
  | reload => "ReloadStep"
  | createUpdateSql => "CreateUpdateSqlStep"
  | primaryKeyCheck => "PrimaryKeyCheckStep"
  | countCheck => "CountCheckStep"
  | columnCheck => "ColumnCheckStep"
  | pipelineDependencies => "PipelineDependenciesStep"
  | loadReloadPk => "LoadReloadAndPrimaryKeyStep"
  | safeCreateLoad => "SafeCreateLoadStep"

/-- The machine that steps of a kind run on. -/
def machine : Kind → Machine
  | extractLocal | extractS3 => .none
  | emrStreaming | emrStep => .emr
  | _ => .ec2

/-- Steps of the kind refer to the warehouse themselves. -/
def usesWarehouse : Kind → Bool
  | extractRedshift | loadRedshift | sqlCommand => true
  | _ => false

/-- The kind that a word names. -/
def ofText? (s : String) : Option Kind := all.find? (·.text == s)

@[simp]
theorem ofText?_text (k : Kind) : ofText? k.text = some k := by
  cases k <;> decide

end Kind

end EtlFlow.Step
