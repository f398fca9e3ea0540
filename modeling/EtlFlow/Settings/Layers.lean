import EtlFlow.Settings.Basic
/-!
# Layers of settings

Settings are read from several files, each laid over the ones before it.
-/

namespace EtlFlow.Settings

open Yaml

/-- The file of settings of the whole system. -/
def systemFile : String := "/etc/dataduct.cfg"

/-- The file of settings of a user, seen from the home directory. -/
def userFile : String := ".dataduct/dataduct.cfg"

/-- The environment variable with further files. -/
def filesVariable : String := "DATADUCT_CONFIG_PATH"

/-- The files of settings, the later ones over the earlier ones. -/
def searchPath (home further : Option String) : List String :=
  systemFile :: (home.toList.map fun h => Files.Path.join h userFile) ++
    (((Text.splitAt ':' (further.getD "")).map Text.trimmed).filter (· ≠ ""))

/-- The value that a file of settings holds. -/
def readLayer (files : Files.Tree) (path : String) : Except Error Value := do
  let text ← (files.readText path).mapError .io
  match ← (Value.parse text).mapError (.notYaml (some path)) with
  | .null => return .mapping []
  | v => return v

/-- The settings of the files that there are, of which there must be one. -/
def load (files : Files.Tree) (paths : List String) : Except Error Settings := do
  match ← (paths.filter files.isFile).mapM (readLayer files) with
  | [] => throw (.noFile paths)
  | first :: others => ofValue (others.foldl Value.merge first)

end EtlFlow.Settings
