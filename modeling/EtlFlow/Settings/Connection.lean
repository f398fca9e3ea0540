import EtlFlow.Settings.Etl
/-!
# Connections to databases
-/

namespace EtlFlow.Settings

open Yaml

/-- The warehouse that pipelines load. -/
structure Redshift where
  databaseName : Option String := none
  clusterId : Option String := none
  username : Option String := none
  password : Option String := none
  deriving DecidableEq, Repr

namespace Redshift

/-- How the warehouse is written. -/
def fields : Fields Redshift :=
  Redshift.mk <$> .optional "database_name" Decode.string
    <*> .optional "cluster_id" Decode.string
    <*> .optional "username" Decode.string
    <*> .optional "password" Decode.string

/-- The database of the warehouse. -/
def requireDatabase (w : Redshift) : Except Error String :=
  require "redshift.database_name" w.databaseName

/-- The cluster that the warehouse runs on. -/
def requireCluster (w : Redshift) : Except Error String := require "redshift.cluster_id" w.clusterId

/-- The user of the warehouse. -/
def requireUsername (w : Redshift) : Except Error String := require "redshift.username" w.username

/-- The password of the user. -/
def requirePassword (w : Redshift) : Except Error String := require "redshift.password" w.password

end Redshift

/-- The host of a database that data is taken from. -/
structure Host where
  host : String
  username : String
  password : String
  database : Option String := none
  port : Option Nat := none
  region : Option String := none
  deriving DecidableEq, Repr

/-- How a host is written. -/
def Host.fields : Fields Host :=
  Host.mk <$> .required "host" Decode.string
    <*> .required "username" Decode.string
    <*> .required "password" Decode.string
    <*> .optional "database" Decode.string
    <*> .optional "port" (Decode.natural 16)
    <*> .optional "region" Decode.string

/-- The host of a name. -/
def findHost (system : String) (hosts : List (String × Host)) (name : String) : Except Error Host :=
  match hosts.lookup name with
  | some h => .ok h
  | none => .error (.unknownHost system name (hosts.map (·.1)))

end EtlFlow.Settings
