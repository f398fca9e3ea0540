import EtlFlow.Yaml.Node
import EtlFlow.Yaml.Scalar
/-!
# YAML documents

The value of a document.  Plain scalars are resolved, scalars in quotes are strings, and a tag of the
document's own makes a tagged value.
-/

namespace EtlFlow.Yaml

/-! ### Scalars -/

/-- The start of the tags of the YAML language itself. -/
def coreTag (name : String) : String := "tag:yaml.org,2002:" ++ name

/-- The value of a plain scalar without a tag. -/
def plainValue (text : String) : Except SyntaxError Value :=
  match Scalar.resolve? text with
  | some v => .ok v
  | none => .error (.outOfRange text)

/-- The value of a scalar with a tag that is not the document's own. -/
def coreValue (tag text : String) : Except SyntaxError Value :=
  if tag = coreTag "bool" then
    match Scalar.bool? text with
    | some b => .ok (.bool b)
    | none => .error (.notOfType text "a boolean")
  else if tag = coreTag "int" then
    match Scalar.integer? text.toList with
    | some n =>
      if Scalar.minInt ≤ n ∧ n ≤ Scalar.maxInt then .ok (.int n) else .error (.outOfRange text)
    | none => .error (.notOfType text "an integer")
  else if tag = coreTag "float" then
    match Scalar.real? text with
    | some x => .ok (.float x)
    | none => .error (.notOfType text "a float")
  else if tag = coreTag "null" then
    if Scalar.isNull text then .ok .null else .error (.notOfType text "null")
  else .ok (.string text)

/-- The tag is the document's own. -/
def isOwnTag (tag : String) : Bool := tag.toList.head? == some '!'

/-- A value under the tag of its node. -/
def underTag (tag : Option String) (v : Value) : Except SyntaxError Value :=
  match tag with
  | some "!" => .error .emptyTag
  | some t => .ok (if isOwnTag t then .tagged t v else v)
  | none => .ok v

/-- The value of a scalar whose tag, if any, is the document's own. -/
def ownValue (text : String) (plain : Bool) (tag : Option String) : Except SyntaxError Value := do
  underTag tag (← if plain then plainValue text else pure (.string text))

/-- The value of a scalar. -/
def scalarValue (text : String) (plain : Bool) (tag : Option String) : Except SyntaxError Value :=
  match tag.filter fun t => !isOwnTag t with
  | some t => coreValue t text
  | none => ownValue text plain tag

/-! ### Trees -/

namespace Value

mutual

/-- The value of a node. -/
def ofNode : Node → Except SyntaxError Value
  | .scalar text plain tag => scalarValue text plain tag
  | .sequence items tag => do underTag tag (.sequence (← ofItems items))
  | .mapping entries tag => do underTag tag (.mapping (← ofEntries [] entries))

/-- The values of the items of a sequence. -/
def ofItems : List Node → Except SyntaxError (List Value)
  | [] => .ok []
  | n :: ns => do return (← ofNode n) :: (← ofItems ns)

/-- The entries of a mapping behind `before`, whose keys must not come again. -/
def ofEntries (before : Entries) : List (Node × Node) → Except SyntaxError Entries
  | [] => .ok before
  | (k, v) :: es => do
    let k ← ofNode k
    if (get? k before).isSome then throw .repeatedKey
    ofEntries (before ++ [(k, ← ofNode v)]) es

end

/-- The value of the only document of a text, null for a text without one. -/
def parse (text : String) : Except SyntaxError Value := do
  match ← Node.parse? text with
  | none => return .null
  | some n => ofNode n

end Value

end EtlFlow.Yaml
