import EtlFlow.Files.Tree
import EtlFlow.Storage.Location
import EtlFlow.Yaml.Decode
import EtlFlow.Yaml.Error
/-!
# What can be wrong with settings
-/

namespace EtlFlow.Settings

/-- What can be wrong with settings. -/
inductive Error where
  | noFile (searched : List String)
  | missing (key : String)
  | noGrantee (privilege : String)
  | repeatedStep (stepType : String)
  | location (cause : Storage.LocationError)
  | notYaml (file : Option String) (cause : Yaml.SyntaxError)
  | decode (cause : Yaml.DecodeError)
  | io (cause : Files.IoError)
  | noDirectory (cause : Files.NoDirectory)
  | unknownHost (system name : String) (known : List String)
  deriving DecidableEq, Repr

/-- What the error is about. -/
inductive ErrorClass where
  | noFile
  | missing
  | invalid
  | unreadable
  | io
  | notFound
  deriving DecidableEq, Repr

namespace Error

/-- What the error is about. -/
def errorClass : Error → ErrorClass
  | noFile _ => .noFile
  | missing _ => .missing
  | noGrantee _ | repeatedStep _ | location _ => .invalid
  | notYaml .. | decode _ => .unreadable
  | io _ => .io
  | noDirectory _ | unknownHost .. => .notFound

/-- The wording of what happened. -/
def detail : Error → String
  | noFile searched => "searched [" ++ ", ".intercalate searched ++ "]"
  | missing key => "'" ++ key ++ "' must be set in the dataduct config"
  | noGrantee p => "database.permissions entry '" ++ p ++ "' needs a user or a group"
  | repeatedStep t => "custom step '" ++ t ++ "' is declared twice"
  | location e => e.message
  | notYaml none e => e.message
  | notYaml (some file) e => file ++ ": " ++ e.message
  | decode e => e.message
  | io e => e.message
  | noDirectory e => e.message
  | unknownHost system name known =>
    system ++ " host '" ++ name ++ "' not configured, available hosts are " ++ ", ".intercalate known

end Error

/-- The words in front of what happened. -/
def ErrorClass.title : ErrorClass → String
  | noFile => "no configuration file found"
  | missing => "missing configuration"
  | invalid => "invalid configuration"
  | unreadable => "parse error"
  | io => "filesystem error"
  | notFound => "not found"

/-- The wording of an error. -/
def Error.message (e : Error) : String := e.errorClass.title ++ ": " ++ e.detail

end EtlFlow.Settings
