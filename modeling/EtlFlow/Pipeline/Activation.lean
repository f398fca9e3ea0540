import EtlFlow.Pipeline.Basic
import EtlFlow.Storage.Retry
import EtlFlow.Storage.Store
/-!
# Activating a pipeline

The staged files go to the object store one after another, and behind them the document for the orchestrator.
The first upload that fails for good ends the activation.
-/

namespace EtlFlow.Pipeline

open Storage (Location Store StoreError RetryPolicy)

/-! ### Errors -/

/-- Why a pipeline is not activated. -/
inductive ActivationError where
  | store (destination : Location) (cause : StoreError)
  /-- A staged directory cannot be looked through. -/
  | walk (path : String) (cause : Files.IoError)
  deriving DecidableEq, Repr

/-- The wording of an error. -/
def ActivationError.message : ActivationError → String
  | store destination e => "upload failed: " ++ destination.uri ++ ": " ++ e.message
  | walk path e =>
    "walking staged directory failed: IO error for operation on " ++ path ++ ": " ++ e.message

/-! ### Uploads -/

/-- What is uploaded. -/
inductive Body where
  | text (s : String)
  | file (path : String)
  deriving DecidableEq, Repr

/-- One upload. -/
structure Upload where
  body : Body
  destination : Location
  deriving DecidableEq, Repr

/-- The uploads that an artifact takes: one, or one for each file of a directory in the order of their
names. -/
def uploads (files : Files.Tree) (a : Step.Artifact) : Except ActivationError (List Upload) :=
  match a.content with
  | .text s => .ok [⟨.text s, a.destination⟩]
  | .file path => .ok [⟨.file path, a.destination⟩]
  | .directory path =>
    match files.locate path with
    | .error e => .error (.walk path e)
    | .ok (_, .file _) => .ok [⟨.file path, a.destination.joinFile ""⟩]
    | .ok (place, .directory) =>
      .ok ((files.filesBelow place).map fun (below, _) =>
        ⟨.file (Files.pathBelow path below), a.destination.joinFile ("/".intercalate below)⟩)

variable {σ : Type}

/-- An activity on a store with states `σ`, which keeps its state where it fails. -/
abbrev OnStore (σ : Type) := ExceptT ActivationError (StateM σ)

/-- A single try of an upload. -/
def put (store : Store σ) (u : Upload) : σ → Except StoreError Unit × σ :=
  match u.body with
  | .text s => store.put s.toUTF8 u.destination
  | .file path => store.putFile path u.destination

/-- An upload under a policy of retries. -/
def upload (store : Store σ) (policy : RetryPolicy) (u : Upload) : OnStore σ Location := fun s =>
  let run := policy.retry StoreError.isTransient (put store u) s
  (run.result.map (fun _ => u.destination) |>.mapError (.store u.destination), run.state)

/-- The uploads of an artifact. -/
def uploadArtifact (store : Store σ) (policy : RetryPolicy) (a : Step.Artifact) :
    OnStore σ (List Location) := do
  let us ← uploads (store.files (← get)) a
  us.mapM (upload store policy)

/-! ### Activation -/

/-- What an activation wrote. -/
structure ActivationReport where
  uploaded : List Location
  definition : Location
  deriving DecidableEq, Repr

/-- Uploads the staged files of a pipeline, and then its document. -/
def activate (store : Store σ) (policy : RetryPolicy) (p : Pipeline) :
    OnStore σ ActivationReport := do
  let uploaded ← p.artifacts.mapM (uploadArtifact store policy)
  let definition ← upload store policy ⟨.text p.document, p.paths.definition⟩
  return { uploaded := uploaded.flatten, definition }

end EtlFlow.Pipeline
