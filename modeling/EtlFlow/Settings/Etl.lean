import EtlFlow.Settings.Error
/-!
# Settings of every pipeline
-/

namespace EtlFlow.Settings

open Yaml

/-- A setting that must be there. -/
def require {α : Type} (key : String) (value : Option α) : Except Error α :=
  match value with
  | some a => .ok a
  | none => .error (.missing key)

/-- What holds for every pipeline. -/
structure Etl where
  storeBucket : Option String := none
  storePath : String := ""
  role : Option String := none
  resourceRole : Option String := none
  maxRetries : Nat := 0
  retryDelay : String := "10 Minutes"
  failureTopic : Option String := none
  warningTopic : Option String := none
  /-- When a pipeline that names no time starts. -/
  dailyLoadTime : String := "01:00"
  namePrefix : String := ""
  workerGroup : Option String := none
  region : Option String := none
  /-- Where the executors lie on the machines that run activities. -/
  executorDirectory : String := "/usr/local/bin"
  /-- Where the checks of data write their records. -/
  checkLogPath : String := "qa"
  tags : List (String × String) := []
  deriving DecidableEq, Repr

namespace Etl

/-- How the settings of every pipeline are written. -/
def fields : Fields Etl :=
  let d : Etl := {}
  Etl.mk <$> .optional "s3_etl_bucket" Decode.string
    <*> .withDefault "s3_base_path" Decode.string d.storePath
    <*> .optional "role" Decode.string
    <*> .optional "resource_role" Decode.string
    <*> .withDefault "max_retries" (Decode.natural 32) d.maxRetries
    <*> .withDefault "retry_delay" Decode.string d.retryDelay
    <*> .optional "sns_topic_arn_failure" Decode.string
    <*> .optional "sns_topic_arn_warning" Decode.string
    <*> .withDefault "daily_load_time" Decode.string d.dailyLoadTime
    <*> .withDefault "name_prefix" Decode.string d.namePrefix
    <*> .optional "worker_group" Decode.string
    <*> .optional "region" Decode.string
    <*> .withDefault "executor_dir" Decode.string d.executorDirectory
    <*> .withDefault "qa_log_path" Decode.string d.checkLogPath
    <*> .withDefault "tags" (Decode.sortedMap Decode.string) d.tags

/-- The bucket that pipelines work in. -/
def bucket (e : Etl) : Except Error String := require "etl.s3_etl_bucket" e.storeBucket

/-- The role that pipelines run under. -/
def pipelineRole (e : Etl) : Except Error String := require "etl.role" e.role

/-- The role that the machines of a pipeline have. -/
def machineRole (e : Etl) : Except Error String := require "etl.resource_role" e.resourceRole

/-- The part of every key in front of what pipelines add. -/
def basePath (e : Etl) : String := Text.dropAround '/' e.storePath

/-- The path of an executor. -/
def executor (e : Etl) (name : String) : String := Text.dropBack '/' e.executorDirectory ++ "/" ++ name

end Etl

end EtlFlow.Settings
