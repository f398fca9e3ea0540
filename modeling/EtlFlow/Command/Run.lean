import EtlFlow.Command.Arguments
import EtlFlow.Command.Failure
import EtlFlow.Pipeline.Compiler
import EtlFlow.Settings.Layers
import EtlFlow.Warehouse.Database
/-!
# Commands

What a command prints and which files it leaves.  A command that fails keeps what it has printed and written
before.
-/

namespace EtlFlow.Command

open Storage (Store RetryPolicy)
open Time (Instant)

/-! ### Pipelines in files -/

/-- The pipeline that a file defines. -/
def compileFile (settings : Settings) (files : Files.Tree) (now : Instant) (path : String) :
    Except Failure Pipeline := do
  let d ← (Pipeline.Definition.ofFile files path).mapError .pipeline
  let c ← (Pipeline.Compiler.ofSettings settings files now).mapError .customStep
  (c.compile d).mapError .pipeline

/-- The activities of a pipeline, each with what it waits for. -/
def dagOf (p : Pipeline) : Except Failure Dependency.Dag := p.dag.mapError .order

/-- Activates a pipeline in a store. -/
def activateIn {σ : Type} (store : Store σ) (policy : RetryPolicy) (p : Pipeline) (s : σ) :
    Except Failure Pipeline.ActivationReport × σ :=
  let (report, s) := Pipeline.activate store policy p s
  (report.mapError .activation, s)

/-! ### SQL files -/

/-- A line about a statement, and the relation that it creates. -/
def describe (s : Sql.Statement) : Except Warehouse.Error (String × Option Warehouse.Relation) := do
  let listed (names : List String) : String := "[" ++ ", ".intercalate names ++ "]"
  if s.createsTable || s.createsView then
    let r ← Warehouse.Relation.ofStatement s
    let shape := match r with
      | .table t => " columns " ++ listed t.columnNames ++ " primary key " ++ listed t.primaryKeys
      | .view _ => ""
    return (r.kind ++ " " ++ r.fullName ++ shape ++ " depends on " ++ listed r.dependencies, some r)
  else return ("STATEMENT " ++ s.text, none)

/-- The lines about the statements of a file, and the relations that they create. -/
def describeFile (files : Files.Tree) (path : String) :
    Except Failure (List (String × Option Warehouse.Relation)) := do
  let script ← (Sql.Script.ofFile files path).mapError .sql
  (script.statements.mapM describe).mapError .warehouse

/-! ### Running -/

/-- What a command finds beside the files. -/
structure Environment where
  home : Option String := none
  /-- Further files of settings. -/
  further : Option String := none
  now : Instant

/-- What a command has printed, and the files as they are. -/
structure Progress where
  output : String := ""
  files : Files.Tree

/-- A command that runs. -/
abbrev Running := ExceptT Failure (StateM Progress)

/-- What could be done, or the failure. -/
def attempt {α : Type} : Except Failure α → Running α
  | .ok a => pure a
  | .error e => throw e

/-- Prints a line. -/
def printLine (s : String) : Running Unit :=
  modify fun p => { p with output := p.output ++ s ++ "\n" }

/-- Writes a text to a file. -/
def writeText (path text : String) (failure : Files.IoError → Failure) : Running Unit := do
  let files ← attempt (((← get).files.write path text.toUTF8).mapError failure)
  modify fun p => { p with files }

/-- Does a task that is about pipelines. -/
def runPipeline (settings : Settings) (now : Instant) : Task → Running Unit
  | .validate file => do
    let p ← attempt (compileFile settings (← get).files now file)
    printLine ("\n".intercalate (← attempt (dagOf p)).order)
  | .compile file output => do
    let p ← attempt (compileFile settings (← get).files now file)
    match output with
    | some path => writeText path p.document .document
    | none => printLine p.document
  | .visualize file output => do
    let p ← attempt (compileFile settings (← get).files now file)
    let dot := (← attempt (dagOf p)).dot
    match output with
    | some path => writeText path dot .picture
    | none => printLine dot
  | .activate file root attempts => do
    let p ← attempt (compileFile settings (← get).files now file)
    let (report, files) := activateIn (.local root) { attempts } p (← get).files
    modify fun p => { p with files }
    discard (attempt report)
  | .parseSql .. => return

/-- Tells what SQL files hold. -/
def runSql (paths : List String) (inOrder : Bool) : Running Unit := do
  let described ← attempt (paths.mapM (describeFile (← get).files))
  let lines := described.flatten
  printLine ("\n".intercalate (lines.map (·.1)))
  if inOrder then
    let db ← attempt ((Warehouse.Database.ofRelations (lines.filterMap (·.2))).mapError .warehouse)
    (← attempt (db.sorted.mapError .warehouse)).forM fun r => printLine r.statement.sql

/-- The settings of a file, or of the files that are looked for. -/
def readSettings (env : Environment) (files : Files.Tree) (file : Option String) :
    Except Failure Settings :=
  (Settings.load files ((file.map ([·])).getD (Settings.searchPath env.home env.further))).mapError
    .settings

/-- Does what is asked for. -/
def Request.run (env : Environment) (r : Request) : Running Unit := do
  match r.task with
  | .parseSql files inOrder => runSql files inOrder
  | task => runPipeline (← attempt (readSettings env (← get).files r.settingsFile)) env.now task

/-- What a run of the program came to. -/
structure Outcome where
  exit : Nat := 0
  output : String := ""
  errors : String := ""
  files : Files.Tree

/-- Runs the program. -/
def run (env : Environment) (files : Files.Tree) (words : List String) : Outcome :=
  match Request.parse words with
  | .error .help => { output := usage ++ "\n", files }
  | .error e => { exit := 2, errors := e.message ++ "\n", files }
  | .ok r =>
    match (r.run env).run.run { files } with
    | (.ok (), p) => { output := p.output, files := p.files }
    | (.error e, p) =>
      { exit := 1, output := p.output, errors := "Error: " ++ e.message ++ "\n", files := p.files }

end EtlFlow.Command
