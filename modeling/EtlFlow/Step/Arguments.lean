import EtlFlow.Number.Shortest
import EtlFlow.Step.Descriptor
import EtlFlow.Step.Context
/-!
# Arguments

The arguments of a step are a record that holds nothing else; commands take arguments as text.
-/

namespace EtlFlow.Step

open Yaml

/-! ### Arguments of steps -/

/-- The arguments that entries hold. -/
def readArguments {α : Type} (fields : Fields α) (entries : Value.Entries) : Except Error α :=
  (fields.decodeEntries true entries).mapError fun e => .input (.arguments e)

/-- Exactly one of some arguments must be given. -/
def exactlyOne (given : List (String × Bool)) : Except Error Unit :=
  if (given.filter (·.2)).length = 1 then .ok () else refuse (.notExactlyOne (given.map (·.1)))

/-- The name that the path of a file ends with. -/
def fileName (path : String) : Except Error String :=
  demand (.noFileName path) (Files.Path.fileName? path)

/-- The text of a string, a number or a truth value. -/
def scalarText (v : Value) : Except Error String :=
  match v with
  | .string s => .ok s
  | .int n => .ok (toString n)
  | .float x => .ok (Scalar.realText x)
  | .bool b => .ok (toString b)
  | v => refuse (.notScalar v.shown)

/-! ### Arguments of commands -/

/-- An argument with a value. -/
def option (key value : String) : String := "--" ++ key ++ "=" ++ value

/-- An argument that may be given. -/
def optionOf (key : String) (value : Option String) : List String := value.toList.map (option key)

/-- An argument without a value. -/
def switch (key : String) (on : Bool) : List String := if on then ["--" ++ key] else []

/-- A script on one line. -/
def oneLine (s : Sql.Script) : String := " ".intercalate (s.statements.map (·.sql))

end EtlFlow.Step
