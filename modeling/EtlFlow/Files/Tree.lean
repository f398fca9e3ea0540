import EtlFlow.Files.Path
/-!
# File trees

The files that a run can see, as a value: what stands at which place, and the directory that relative
paths start from.  A place is the list of names from the root down.  Reading and writing fail for the
reasons an operating system gives.
-/

namespace EtlFlow.Files

/-- Why a file cannot be read or written. -/
inductive IoError where
  | notFound
  | isDirectory
  | notDirectory
  | exists
  | notText
  deriving DecidableEq, Repr

/-- The wording of an error. -/
def IoError.message : IoError → String
  | .notFound => "No such file or directory (os error 2)"
  | .isDirectory => "Is a directory (os error 21)"
  | .notDirectory => "Not a directory (os error 20)"
  | .exists => "File exists (os error 17)"
  | .notText => "stream did not contain valid UTF-8"

/-- A place: the names from the root down. -/
abbrev Place := List String

/-- What stands at a place. -/
inductive Entry where
  | file (content : ByteArray)
  | directory

/-- Files and directories by place.  Whatever has something below it is a directory. -/
structure Tree where
  entries : List (Place × Entry) := []
  /-- Where relative paths start. -/
  start : Place := []

namespace Tree

/-! ### Looking up -/

/-- What stands at a place. -/
def find? (t : Tree) (place : Place) : Option Entry :=
  match t.entries.find? (·.1 == place) with
  | some (_, e) => some e
  | none =>
    if place.isPrefixOf t.start || t.entries.any (place.isPrefixOf ·.1) then some .directory else none

/-- The place that one step leads to. -/
def next (place : Place) : Step → Place
  | .here => place
  | .up => place.dropLast
  | .name n => place ++ [n]

/-- Where steps lead from `place`.  All but the last place on the way must be directories. -/
def walk (t : Tree) : (place : Place) → List Step → Except IoError Place
  | place, [] => .ok place
  | place, step :: steps =>
    match t.find? place with
    | none => .error .notFound
    | some (.file _) => .error .notDirectory
    | some .directory => walk t (next place step) steps

/-- Where the steps of a path start. -/
def base (t : Tree) (path : String) : Place := if Path.isAbsolute path then [] else t.start

/-- Where a path leads if nothing stands in the way. -/
def placeOf (t : Tree) (path : String) : Place := (Path.steps path).foldl next (t.base path)

/-- The place of a path and what stands there. -/
def locate (t : Tree) (path : String) : Except IoError (Place × Entry) :=
  if path = "" then .error .notFound
  else
    match t.walk (t.base path) (Path.steps path) with
    | .error e => .error e
    | .ok place =>
      match t.find? place with
      | none => .error .notFound
      | some e => .ok (place, e)

/-- Something stands at the path. -/
def has (t : Tree) (path : String) : Bool := (t.locate path).toOption.isSome

/-- A file stands at the path. -/
def isFile (t : Tree) (path : String) : Bool :=
  match t.locate path with
  | .ok (_, .file _) => true
  | _ => false

/-- A directory stands at the path. -/
def isDirectory (t : Tree) (path : String) : Bool :=
  match t.locate path with
  | .ok (_, .directory) => true
  | _ => false

/-! ### Reading -/

/-- The content of the file at a path. -/
def read (t : Tree) (path : String) : Except IoError ByteArray := do
  match ← t.locate path with
  | (_, .file content) => return content
  | (_, .directory) => throw .isDirectory

/-- The text of the file at a path. -/
def readText (t : Tree) (path : String) : Except IoError String := do
  match String.fromUTF8? (← t.read path) with
  | some s => return s
  | none => throw .notText

/-- Lexicographic order of places. -/
def placeLE : Place → Place → Bool
  | [], _ => true
  | _ :: _, [] => false
  | a :: as, b :: bs => if a = b then placeLE as bs else decide (a < b)

/-- The files at or below a place, in the order of their names, each as the place below it. -/
def filesBelow (t : Tree) (place : Place) : List (Place × ByteArray) :=
  (t.entries.filterMap fun
    | (p, .file content) => if place.isPrefixOf p then some (p.drop place.length, content) else none
    | (_, .directory) => none).mergeSort fun a b => placeLE a.1 b.1

/-! ### Writing -/

/-- The tree with an entry at a place. -/
def put (t : Tree) (place : Place) (e : Entry) : Tree :=
  if t.entries.any (·.1 == place) then
    { t with entries := t.entries.map fun p => if p.1 == place then (place, e) else p }
  else { t with entries := t.entries ++ [(place, e)] }

/-- The tree with a file at a path.  Its directory must be there, and it must not be a directory. -/
def write (t : Tree) (path : String) (content : ByteArray) : Except IoError Tree := do
  let steps := Path.steps path
  let place ← t.walk (t.base path) steps.dropLast
  match t.find? place, steps.getLast? with
  | none, _ | _, none => throw .notFound
  | some (.file _), _ => throw .notDirectory
  | some .directory, some (.name n) =>
    match t.find? (place ++ [n]) with
    | some .directory => throw .isDirectory
    | _ => return t.put (place ++ [n]) (.file content)
  | some .directory, some _ => throw .isDirectory

/-- The tree with directories along all the steps. -/
def makeSteps (t : Tree) : (place : Place) → List Step → Except IoError Tree
  | _, [] => .ok t
  | place, .here :: steps => makeSteps t place steps
  | place, .up :: steps => makeSteps t place.dropLast steps
  | place, .name n :: steps =>
    match t.find? (place ++ [n]) with
    | some .directory => makeSteps t (place ++ [n]) steps
    | some (.file _) => .error (if steps.isEmpty then .exists else .notDirectory)
    | none => makeSteps (t.put (place ++ [n]) .directory) (place ++ [n]) steps

/-- The tree with the directory that holds the path, and all above it. -/
def makeParents (t : Tree) (path : String) : Except IoError Tree :=
  t.makeSteps (t.base path) (Path.steps path).dropLast

/-- The tree without whatever stands at or below a place.  The directory that held it stays. -/
def remove (t : Tree) (place : Place) : Tree :=
  let others := { t with entries := t.entries.filter fun p => !place.isPrefixOf p.1 }
  others.put place.dropLast .directory

/-! ### Comparing -/

/-- The entries in which a tree differs from the one before. -/
def changes (before after : Tree) : List (Place × Entry) :=
  after.entries.filter fun (place, e) =>
    match before.find? place, e with
    | some .directory, .directory => false
    | some (.file old), .file new => old != new
    | _, _ => true

end Tree

/-! ### Directories by path -/

/-- The path of what stands at `below` under the directory that `path` names. -/
def pathBelow (path : String) (below : Place) : String := below.foldl Path.join path

/-- No directory stands at `path`. -/
structure NoDirectory where
  path : String
  deriving DecidableEq, Repr

/-- The wording of a missing directory. -/
def NoDirectory.message (e : NoDirectory) : String := "directory '" ++ e.path ++ "' does not exist"

/-- The paths of all files below the directory at `path`, in the order of their names. -/
def filesUnder (t : Tree) (path : String) : Except NoDirectory (List String) :=
  match t.locate path with
  | .ok (place, .directory) => .ok ((t.filesBelow place).map fun (below, _) => pathBelow path below)
  | _ => .error ⟨path⟩

/-- The paths of the files below a directory that carry an extension. -/
def filesWithExtension (t : Tree) (path ext : String) : Except NoDirectory (List String) :=
  (filesUnder t path).map (·.filter (Path.hasExtension ext))

/-- The path that `path` stands for in a document kept in the directory `base`. -/
def resolve (base path : String) : String := Path.join base path

end EtlFlow.Files
