import EtlFlow.Text.Fold
import EtlFlow.Text.Split
/-!
# Paths

A path is a string of names between slashes.  A leading slash makes it absolute; `.` stands for the
directory reached so far and `..` for the one above.
-/

namespace EtlFlow.Files

/-- One step of the walk that a path describes. -/
inductive Step where
  | name (n : String)
  | here
  | up
  deriving DecidableEq, Repr

/-- The step that one part of a path stands for. -/
def Step.ofPart (part : String) : Step :=
  if part = "." then .here else if part = ".." then .up else .name part

namespace Path

/-- The path starts at the root. -/
def isAbsolute (path : String) : Bool := path.toList.head? == some '/'

/-- The steps of a path.  A slash at the end asks for a directory, as `.` does. -/
def steps (path : String) : List Step :=
  let parts := (Text.splitAt '/' path).filter (· ≠ "")
  parts.map Step.ofPart ++ if path.toList.getLast? = some '/' then [.here] else []

/-- The path `path` seen from the directory `base`. -/
def join (base path : String) : String :=
  if isAbsolute path ∨ base = "" then path
  else if base.toList.getLast? = some '/' then base ++ path
  else base ++ "/" ++ path

/-- The name that a path ends with, if it ends with a name. -/
def fileName? (path : String) : Option String :=
  match (steps path).reverse.dropWhile (· == .here) with
  | .name n :: _ => some n
  | _ => none

/-- The parts of a path without the empty parts and the dots at its end; the first part stays. -/
def dropIdle : List String → List String
  | [] => []
  | p :: ps => p :: (ps.reverse.dropWhile fun q => q = "" ∨ q = ".").reverse

/-- The path without its last name; empty for a single name. -/
def parent (path : String) : String :=
  match dropIdle (dropIdle (Text.splitAt '/' path)).dropLast with
  | [""] => "/"
  | parts => "/".intercalate parts

/-- The text behind the last period of the name, unless the name starts with that period. -/
def extension? (path : String) : Option String := do
  let n ← fileName? path
  let ending := (n.toList.reverse.takeWhile (· ≠ '.')).reverse
  if ending.length + 1 < n.length then some (String.ofList ending) else none

/-- The extension is `ext`, up to the case of ASCII letters. -/
def hasExtension (ext path : String) : Bool := (extension? path).any (Text.sameAscii ext)

end Path

end EtlFlow.Files
