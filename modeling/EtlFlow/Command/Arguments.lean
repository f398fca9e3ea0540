import EtlFlow.Number.Digits
import EtlFlow.Text.Split
/-!
# Command lines

What the words behind the name of the program ask for.  A task is named by two words; options may stand in
front of them, between them and behind them, and everything behind a double dash is no option.
-/

namespace EtlFlow.Command

/-! ### Tasks -/

/-- What is to be done. -/
inductive Task where
  | validate (file : String)
  | compile (file : String) (output : Option String)
  | visualize (file : String) (output : Option String)
  /-- Uploads go below a root directory, each one tried some times. -/
  | activate (file root : String) (attempts : Nat)
  /-- The relations of the files, and perhaps their statements in the order of their dependencies. -/
  | parseSql (files : List String) (inOrder : Bool)
  deriving DecidableEq, Repr

/-- A task, and the file of settings to use for it. -/
structure Request where
  settingsFile : Option String
  task : Task
  deriving DecidableEq, Repr

/-- Why words ask for nothing. -/
inductive UsageError where
  | help
  | noTask
  | unknownTask (word : String)
  | unknownOption (word : String)
  | repeatedOption (name : String)
  | missingValue (name : String)
  | invalidValue (name value : String)
  | missingFile
  | unexpected (word : String)
  deriving DecidableEq, Repr

/-- How the program is called. -/
def usage : String := "\n".intercalate [
  "Usage: etlflow [-c FILE] pipeline validate FILE",
  "       etlflow [-c FILE] pipeline compile FILE [-o FILE]",
  "       etlflow [-c FILE] pipeline visualize FILE [-o FILE]",
  "       etlflow [-c FILE] pipeline activate FILE --store-root DIR [--attempts N]",
  "       etlflow sql parse FILE... [--order]"]

/-- The wording of an error. -/
def UsageError.message : UsageError → String
  | help => usage
  | noTask => "a task is missing"
  | unknownTask w => "unknown task '" ++ w ++ "'"
  | unknownOption w => "unknown option '" ++ w ++ "'"
  | repeatedOption n => "option '" ++ n ++ "' is given twice"
  | missingValue n => "option '" ++ n ++ "' needs a value"
  | invalidValue n v => "invalid value '" ++ v ++ "' for '" ++ n ++ "'"
  | missingFile => "a file is missing"
  | unexpected w => "unexpected argument '" ++ w ++ "'"

/-! ### Options -/

/-- An option: how it is written, and whether it takes a value. -/
structure OptionForm where
  name : String
  short : Option String := none
  takesValue : Bool := true
  deriving DecidableEq, Repr

namespace OptionForm

/-- The file of settings. -/
def settings : OptionForm := { name := "--config-path", short := some "-c" }

/-- The file that a result goes to. -/
def output : OptionForm := { name := "--output", short := some "-o" }

/-- The directory that uploads go to. -/
def root : OptionForm := { name := "--store-root" }

/-- How often an upload is tried. -/
def attempts : OptionForm := { name := "--attempts" }

/-- Whether statements are put in order. -/
def order : OptionForm := { name := "--order", takesValue := false }

/-- The option is written so. -/
def isWritten (o : OptionForm) (word : String) : Bool := word == o.name || some word == o.short

end OptionForm

/-- Options with their values, and the words that are no options. -/
structure Given where
  options : List (OptionForm × String) := []
  words : List String := []
  deriving DecidableEq, Repr

/-- The value of an option that is given. -/
def Given.value? (g : Given) (o : OptionForm) : Option String := g.options.lookup o

/-- An option that a word may be, and the value attached to it. -/
def splitOption? (word : String) : Option (String × Option String) :=
  match word.toList with
  | '-' :: '-' :: _ =>
    match Text.splitFirst? '=' word with
    | some (name, value) => some (name, some value)
    | none => some (word, none)
  | '-' :: c :: rest =>
    let value := match rest with
      | '=' :: v => v
      | v => v
    some (String.ofList ['-', c], if rest.isEmpty then none else some (String.ofList value))
  | _ => none

/-- Reads options behind what is given, up to the first other word if `stops`, and the words from there. -/
def scan (forms : List OptionForm) (stops : Bool) (g : Given) :
    List String → Except UsageError (Given × List String)
  | [] => .ok (g, [])
  | word :: rest =>
    if word = "--" then
      if stops then .error (.unknownTask word) else .ok ({ g with words := g.words ++ rest }, [])
    else
      match splitOption? word with
      | none =>
        if stops then .ok (g, word :: rest)
        else scan forms stops { g with words := g.words ++ [word] } rest
      | some (name, attached) =>
        if name = "--help" ∨ name = "-h" then .error .help
        else
          match forms.find? (·.isWritten name) with
          | none => .error (.unknownOption word)
          | some o =>
            if (g.value? o).isSome then .error (.repeatedOption name)
            else
              match o.takesValue, attached, rest with
              | false, some _, _ => .error (.unexpected word)
              | false, none, rest => scan forms stops { g with options := (o, "") :: g.options } rest
              | true, some v, rest => scan forms stops { g with options := (o, v) :: g.options } rest
              | true, none, v :: rest =>
                if (splitOption? v).isSome then .error (.missingValue name)
                else scan forms stops { g with options := (o, v) :: g.options } rest
              | true, none, [] => .error (.missingValue name)

/-! ### Reading a task -/

/-- A file name, which is not empty. -/
def fileName (s : String) : Except UsageError String :=
  if s = "" then .error .missingFile else .ok s

/-- The only word. -/
def Given.file (g : Given) : Except UsageError String :=
  match g.words with
  | [] => .error .missingFile
  | [w] => fileName w
  | _ :: w :: _ => .error (.unexpected w)

/-- The file name that an option gives. -/
def Given.path? (g : Given) (o : OptionForm) : Except UsageError (Option String) :=
  (g.value? o).mapM fileName

/-- How often an upload is tried. -/
def Given.attempts (g : Given) : Except UsageError Nat :=
  match g.value? .attempts with
  | none => .ok 5
  | some s =>
    match Number.integer? 0x8000000000000000 s.toList with
    | some n => if 0 ≤ n ∧ n < 0x100000000 then .ok n.toNat else .error (.invalidValue "--attempts" s)
    | none => .error (.invalidValue "--attempts" s)

/-- The options of a task beside the file of settings, and how the task is read. -/
structure TaskForm where
  options : List OptionForm
  read : Given → Except UsageError Task

/-- The form of the task that two words name. -/
def TaskForm.find (group name : String) : Except UsageError TaskForm :=
  match group, name with
  | "pipeline", "validate" => .ok ⟨[], fun g => return .validate (← g.file)⟩
  | "pipeline", "compile" =>
    .ok ⟨[.output], fun g => return .compile (← g.file) (← g.path? .output)⟩
  | "pipeline", "visualize" =>
    .ok ⟨[.output], fun g => return .visualize (← g.file) (← g.path? .output)⟩
  | "pipeline", "activate" =>
    .ok ⟨[.root, .attempts], fun g => do
      let some root ← g.path? .root | throw (.missingValue "--store-root")
      return .activate (← g.file) root (← g.attempts)⟩
  | "sql", "parse" =>
    .ok ⟨[.order], fun g => do
      if g.words.isEmpty then throw .missingFile
      return .parseSql (← g.words.mapM fileName) (g.value? .order).isSome⟩
  | _, "help" => .error .help
  | _, _ => .error (.unknownTask name)

/-- The next word behind options for the file of settings. -/
def nextWord (words : List String) : Except UsageError (Option String × String × List String) := do
  let (g, rest) ← scan [.settings] true {} words
  match rest with
  | [] => throw .noTask
  | word :: rest => return (← g.path? .settings, word, rest)

/-- What words ask for.  Of several files of settings the last counts. -/
def Request.parse (words : List String) : Except UsageError Request := do
  let (outer, group, words) ← nextWord words
  if group = "help" then throw .help
  if group ≠ "pipeline" ∧ group ≠ "sql" then throw (.unknownTask group)
  let (middle, name, words) ← nextWord words
  let form ← TaskForm.find group name
  let (g, _) ← scan (.settings :: form.options) false {} words
  let inner ← g.path? .settings
  return { settingsFile := inner <|> middle <|> outer, task := ← form.read g }

end EtlFlow.Command
