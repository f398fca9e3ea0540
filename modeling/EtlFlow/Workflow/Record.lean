import EtlFlow.Json.Printer
import EtlFlow.Storage.Location
/-!
# Records

The form in which the orchestrator takes an object: its id and a list of fields.  A key may come several times;
a field holds a text or refers to another object.
-/

namespace EtlFlow.Workflow

/-- The name by which objects refer to each other. -/
abbrev ObjectId := String

/-- What a field holds. -/
inductive FieldValue where
  | text (s : String)
  | reference (id : ObjectId)
  deriving DecidableEq, Repr

/-- The entry of JSON that holds the value. -/
def FieldValue.entry : FieldValue → String × Json
  | .text s => ("stringValue", .string s)
  | .reference id => ("refValue", .string id)

/-- A field: its key and what it holds. -/
abbrev Field := String × FieldValue

namespace Field

/-- The key under which activities name what they wait for. -/
def dependsOn : String := "dependsOn"

/-- Fields of one key with texts. -/
def texts (key : String) (ss : List String) : List Field := ss.map fun s => (key, .text s)

/-- A field with a text. -/
def text (key s : String) : List Field := texts key [s]

/-- Fields of one key with references. -/
def references (key : String) (ids : List ObjectId) : List Field := ids.map fun i => (key, .reference i)

/-- A field with a reference. -/
def reference (key : String) (id : ObjectId) : List Field := references key [id]

/-- A field with a place in the object store. -/
def location (key : String) (l : Storage.Location) : List Field := text key l.uri

/-- A field with a number. -/
def number (key : String) (n : Nat) : List Field := text key (toString n)

end Field

/-- An object as the orchestrator takes it.  The id is its name too. -/
structure Record where
  id : ObjectId
  fields : List Field := []
  deriving DecidableEq, Repr

namespace Record

/-- A record whose first field is its type. -/
def ofType (id : ObjectId) (type : String) (fields : List Field) : Record :=
  ⟨id, Field.text "type" type ++ fields⟩

/-- The record with one more field.  What an activity waits for is named once. -/
def set (r : Record) (key : String) (v : FieldValue) : Record :=
  if key = Field.dependsOn ∧ (key, v) ∈ r.fields then r else { r with fields := r.fields ++ [(key, v)] }

/-- The record with further fields of one key. -/
def setAll (r : Record) (key : String) (vs : List FieldValue) : Record :=
  vs.foldl (fun r v => r.set key v) r

/-- Everything that the fields of a key hold. -/
def all (r : Record) (key : String) : List FieldValue := (r.fields.filter (·.1 == key)).map (·.2)

/-- What the first field of a key holds. -/
def get? (r : Record) (key : String) : Option FieldValue := (r.all key).head?

/-- The text that the first field of a key holds. -/
def text? (r : Record) (key : String) : Option String :=
  match r.get? key with
  | some (.text s) => some s
  | _ => none

/-- The type of the object. -/
def type? (r : Record) : Option String := r.text? "type"

/-- The ids that the fields of a key refer to. -/
def references (r : Record) (key : String) : List ObjectId :=
  (r.all key).filterMap fun
    | .reference id => some id
    | .text _ => none

/-! ### Text -/

/-- A field as JSON. -/
def fieldJson (f : Field) : Json := .object [("key", .string f.1), f.2.entry]

/-- A record as JSON. -/
def json (r : Record) : Json :=
  .object [("id", .string r.id), ("name", .string r.id), ("fields", .array (r.fields.map fieldJson))]

end Record

end EtlFlow.Workflow
