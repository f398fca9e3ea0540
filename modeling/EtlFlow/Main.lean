import EtlFlow.Command.Run
import Std.Time.DateTime.Timestamp
/-!
# The program

Takes the files as they stand, runs the command that the words ask for and brings the files to what it leaves.
A command sees all that stands below the directories of the files that it is told to read, the files of
settings, and the place where its result goes.
-/

namespace EtlFlow.Command

open Files (Place Entry Tree)

/-! ### What a command can see -/

/-- The directories with everything that a task may read. -/
def Task.folders : Task → List String
  | .validate file | .compile file _ | .visualize file _ | .activate file .. => [Files.Path.parent file]
  | .parseSql files _ => files.map Files.Path.parent

/-- The single paths that a request touches. -/
def Request.paths (env : Environment) (r : Request) : List String :=
  let settings := (r.settingsFile.map ([·])).getD (Settings.searchPath env.home env.further)
  match r.task with
  | .compile _ (some path) | .visualize _ (some path) => [Files.Path.parent path, path] ++ settings
  | _ => settings

/-- The path of a place. -/
def pathOf (place : Place) : String := "/" ++ "/".intercalate place

/-- What stands at a path.  What cannot be read is left out. -/
def entryAt (e : IO.FS.DirEntry) : IO (Option Entry) := do
  try
    match (← e.path.metadata).type with
    | .dir => return some .directory
    | .file => return some (.file (← IO.FS.readBinFile e.path))
    | _ => return none
  catch _ => return none

/-- What stands below a directory.  Links to directories are not followed. -/
partial def entriesBelow (place : Place) (e : IO.FS.DirEntry) : IO (List (Place × Entry)) := do
  let mut found := []
  for e in ← e.path.readDir do
    let place := place ++ [e.fileName]
    match ← entryAt e, (← e.path.symlinkMetadata).type with
    | some .directory, .symlink | none, _ => continue
    | some .directory, _ => found := (place, .directory) :: (← entriesBelow place e) ++ found
    | some content, _ => found := (place, content) :: found
  return found

/-- The files as a request sees them. -/
def look (env : Environment) (r : Request) : IO Tree := do
  let here ← IO.currentDir
  let tree : Tree := { start := Tree.placeOf {} here.toString }
  let folders := (r.task.folders.map tree.placeOf).eraseDups
  let mut entries := []
  for place in folders do
    if ← (here / pathOf place).isDir then
      entries := entries ++ (← entriesBelow place ⟨here, pathOf place⟩)
  for place in (r.paths env).map tree.placeOf do
    match ← entryAt ⟨here, pathOf place⟩ with
    | some e => entries := entries ++ [(place, e)]
    | none => continue
  return { tree with entries }

/-! ### Running -/

/-- Writes what differs between two trees. -/
def writeChanges (before after : Tree) : IO Unit := do
  let here ← IO.currentDir
  for (place, e) in before.changes after do
    match e with
    | .directory => IO.FS.createDirAll (here / pathOf place)
    | .file content => IO.FS.writeBinFile (here / pathOf place) content

end EtlFlow.Command

open EtlFlow Command in
/-- Runs the program on its words. -/
def main (words : List String) : IO UInt32 := do
  let clock ← Std.Time.Timestamp.now
  let env : Environment := {
    home := ← IO.getEnv "HOME"
    further := ← IO.getEnv Settings.filesVariable
    now := ⟨clock.toSecondsSinceUnixEpoch.val⟩ }
  let before ← match Request.parse words with
    | .ok r => look env r
    | .error _ => pure {}
  let outcome := run env before words
  IO.print outcome.output
  IO.eprint outcome.errors
  writeChanges before outcome.files
  return UInt32.ofNat outcome.exit
