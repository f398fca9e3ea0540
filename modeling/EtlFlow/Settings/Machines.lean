import EtlFlow.Number.Digits
import EtlFlow.Settings.Error
import EtlFlow.Text.Blank
import EtlFlow.Yaml.Merge
/-!
# Machines

The single machine and the cluster that activities run on.  A pipeline lays its own description over the
one of the settings.
-/

namespace EtlFlow.Settings

open Yaml

/-- Settings with `overrides` laid over them, where `write` writes them and `fields` reads them. -/
def overlaid {α : Type} (fields : Fields α) (write : α → Value) (a : α) (overrides : Value) :
    Except Error α :=
  let merged := if overrides.isNull then write a else (write a).merge overrides
  (fields.decode merged).mapError .decode

/-- A string or null. -/
def optionalValue (s : Option String) : Value := (s.map Value.string).getD .null

/-- A record as a mapping. -/
def recordValue (entries : List (String × Value)) : Value :=
  .mapping (entries.map fun (k, v) => (.string k, v))

/-! ### A single machine -/

/-- A single machine. -/
structure Ec2 where
  instanceType : String := "m1.large"
  image : Option String := none
  securityGroup : Option String := none
  securityGroupIds : List String := []
  subnet : Option String := none
  keyPair : Option String := none
  terminateAfter : String := "6 Hours"
  deriving DecidableEq, Repr

namespace Ec2

/-- How a machine is written. -/
def fields : Fields Ec2 :=
  let d : Ec2 := {}
  Ec2.mk <$> .withDefault "instance_type" Decode.string d.instanceType
    <*> .optional "ami" Decode.string
    <*> .optional "security_group" Decode.string
    <*> .withDefault "security_group_ids" (Decode.list Decode.string) d.securityGroupIds
    <*> .optional "subnet_id" Decode.string
    <*> .optional "key_pair" Decode.string
    <*> .withDefault "terminate_after" Decode.string d.terminateAfter

/-- A machine as a value. -/
def toValue (m : Ec2) : Value := recordValue [
  ("instance_type", .string m.instanceType), ("ami", optionalValue m.image),
  ("security_group", optionalValue m.securityGroup),
  ("security_group_ids", .sequence (m.securityGroupIds.map .string)),
  ("subnet_id", optionalValue m.subnet), ("key_pair", optionalValue m.keyPair),
  ("terminate_after", .string m.terminateAfter)]

/-- A machine with a description laid over it. -/
def overlaid (m : Ec2) (overrides : Value) : Except Error Ec2 :=
  Settings.overlaid fields toValue m overrides

end Ec2

/-! ### A cluster -/

/-- A cluster. -/
structure Emr where
  masterInstanceType : String := "m1.large"
  coreInstanceType : String := "m1.large"
  coreInstances : Nat := 1
  taskInstanceType : Option String := none
  taskInstances : Nat := 0
  taskBidPrice : Option String := none
  imageVersion : String := "3.3.1"
  terminateAfter : String := "6 Hours"
  keyPair : Option String := none
  subnet : Option String := none
  bootstrapActions : List String := []
  deriving DecidableEq, Repr

namespace Emr

/-- How a cluster is written. -/
def fields : Fields Emr :=
  let d : Emr := {}
  Emr.mk <$> .withDefault "master_instance_type" Decode.string d.masterInstanceType
    <*> .withDefault "core_instance_type" Decode.string d.coreInstanceType
    <*> .withDefault "num_core_instances" (Decode.natural 32) d.coreInstances
    <*> .optional "task_instance_type" Decode.string
    <*> .withDefault "num_task_instances" (Decode.natural 32) d.taskInstances
    <*> .optional "task_bid_price" Decode.string
    <*> .withDefault "ami_version" Decode.string d.imageVersion
    <*> .withDefault "terminate_after" Decode.string d.terminateAfter
    <*> .optional "key_pair" Decode.string
    <*> .optional "subnet_id" Decode.string
    <*> .withDefault "bootstrap_actions" (Decode.list Decode.string) d.bootstrapActions

/-- A cluster as a value. -/
def toValue (c : Emr) : Value := recordValue [
  ("master_instance_type", .string c.masterInstanceType),
  ("core_instance_type", .string c.coreInstanceType), ("num_core_instances", .int c.coreInstances),
  ("task_instance_type", optionalValue c.taskInstanceType),
  ("num_task_instances", .int c.taskInstances), ("task_bid_price", optionalValue c.taskBidPrice),
  ("ami_version", .string c.imageVersion), ("terminate_after", .string c.terminateAfter),
  ("key_pair", optionalValue c.keyPair), ("subnet_id", optionalValue c.subnet),
  ("bootstrap_actions", .sequence (c.bootstrapActions.map .string))]

/-- A cluster with a description laid over it. -/
def overlaid (c : Emr) (overrides : Value) : Except Error Emr :=
  Settings.overlaid fields toValue c overrides

/-- The series of the machine image: the first part of its version, zero if that is no number. -/
def imageSeries (c : Emr) : Nat :=
  let first := c.imageVersion.toList.takeWhile (· ≠ '.')
  (Number.natural? 0x100000000 (Text.trim first)).getD 0

end Emr

end EtlFlow.Settings
