import EtlFlow.Pipeline.Activation
import EtlFlow.Pipeline.Error
/-!
# Why a command fails
-/

namespace EtlFlow.Command

/-- Why a command fails. -/
inductive Failure where
  | settings (cause : Settings.Error)
  | customStep (cause : Step.Error)
  | pipeline (cause : Pipeline.Error)
  | order (cause : Dependency.Error)
  /-- The picture of the activities cannot be written. -/
  | picture (cause : Files.IoError)
  /-- The document for the orchestrator cannot be written. -/
  | document (cause : Files.IoError)
  | sql (cause : Sql.Error)
  | warehouse (cause : Warehouse.Error)
  | activation (cause : Pipeline.ActivationError)
  deriving DecidableEq, Repr

namespace Failure

/-- The words in front of what happened. -/
def title : Failure → String
  | settings _ | customStep _ => "initialisation failed"
  | activation _ => "activation failed"
  | _ => "compile failed"

/-- The wording of what happened. -/
def detail : Failure → String
  | settings e => e.message
  | customStep e => e.message
  | pipeline e => e.message
  | order e => e.message
  | picture e => "I/O error: " ++ e.message
  | document e => e.message
  | sql e => e.message
  | warehouse e => e.message
  | activation e => e.message

/-- The wording of a failure. -/
def message (f : Failure) : String := f.title ++ ": " ++ f.detail

end Failure

end EtlFlow.Command
