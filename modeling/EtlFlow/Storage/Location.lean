import EtlFlow.Text.Split
/-!
# Locations in an object store

A location is a bucket and a key; a directory is told from a file by the slash at the end of its URI.
The key of a directory has no slash at its ends, the key of a file none at its front.
-/

namespace EtlFlow.Storage

/-- A place in an object store. -/
structure Location where
  bucket : String
  key : String
  isDirectory : Bool
  deriving DecidableEq, Repr

/-- Why a text is no location. -/
inductive LocationError where
  | notUri (text : String)
  | noBucket (text : String)
  deriving DecidableEq, Repr

/-- The wording of an error. -/
def LocationError.message : LocationError → String
  | .notUri t => "'" ++ t ++ "' is not an s3:// URI"
  | .noBucket t => "'" ++ t ++ "' has no bucket"

namespace Location

/-- A directory of a bucket. -/
def directory (bucket key : String) : Location := ⟨bucket, Text.dropAround '/' key, true⟩

/-- A file of a bucket. -/
def file (bucket key : String) : Location := ⟨bucket, Text.dropFront '/' key, false⟩

/-- The location that a URI names. -/
def ofUri (uri : String) : Except LocationError Location :=
  match Text.afterFront? "s3://" uri with
  | none => .error (.notUri uri)
  | some rest =>
    let (bucket, key) := (Text.splitFirst? '/' rest).getD (rest, "")
    if bucket = "" then .error (.noBucket uri)
    else if key = "" ∨ key.toList.getLast? = some '/' then .ok (directory bucket key)
    else .ok (file bucket key)

/-- The key of what lies below a location. -/
def keyBelow (l : Location) (part : String) : String :=
  let part := Text.dropAround '/' part
  if l.key = "" then part else l.key ++ "/" ++ part

/-- The directory `part` below a location. -/
def joinDirectory (l : Location) (part : String) : Location := directory l.bucket (l.keyBelow part)

/-- The file `part` below a location. -/
def joinFile (l : Location) (part : String) : Location := file l.bucket (l.keyBelow part)

/-- The URI of a location. -/
def uri (l : Location) : String :=
  "s3://" ++ l.bucket ++ "/" ++ l.key ++ if l.isDirectory && l.key != "" then "/" else ""

/-- The last part of the key. -/
def baseName (l : Location) : String := ((Text.splitLast? '/' l.key).map (·.2)).getD l.key

end Location

end EtlFlow.Storage
