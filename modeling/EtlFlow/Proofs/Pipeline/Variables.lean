import EtlFlow.Proofs.Pipeline.Inputs
import EtlFlow.Proofs.Step.Variables
/-!
# Staging variables of compiled steps

A command is told where its inputs are staged by their positions in a list of its own, while the
activity that runs it keeps each input once.  Both agree, because no name of a build leads to a node
that another name leads to, and because the node of a script directory is new
(`staging_variables`).
-/

namespace EtlFlow.Pipeline

open Outcome
open Step (Nodes NodeRef Descriptor TransformArguments)
open Workflow (Object ObjectId Activity)

variable {p : Plan} {b b' : Build} {s : PlannedStep} {front : List CompiledStep} {t : CompiledStep}
  {aliases : List (String × String)}

/-! ### Mappings of definitions -/

/-- The steps that rename their inputs name each of them once, as mappings do. -/
def Definition.NamesOnce (d : Definition) : Prop :=
  (∀ e ∈ d.steps, e.NamesOnce) ∧ ∀ e ∈ d.teardown, e.NamesOnce

/-- Whatever is read from a text names the inputs once. -/
theorem namesOnce_of_parse {text baseDirectory : String} {d : Definition}
    (h : Definition.parse text baseDirectory = .ok d) : d.NamesOnce := by
  simp only [Definition.parse, bind_eq_ok_iff, mapError_eq_ok_iff, guard_eq_ok_iff,
    pure_eq_ok_iff] at h
  obtain ⟨_, _, ⟨definition, values, value⟩, _, _, _, steps, hsteps, teardown, hteardown, rfl⟩ := h
  constructor
  · intro e he
    obtain ⟨⟨v, i⟩, _, hv⟩ := exists_of_mem_mapM hsteps he
    exact Step.namesOnce_of_ofValue (mapError_eq_ok_iff.mp hv)
  · rintro e (rfl : teardown = some e)
    cases value with
    | none => cases hteardown
    | some v =>
        simp only [Option.mapM_some, map_eq_pure_bind, bind_eq_ok_iff, pure_eq_ok_iff] at hteardown
        obtain ⟨_, hv, h⟩ := hteardown
        cases h
        exact Step.namesOnce_of_ofValue hv

/-- An activity of the expansion is one of the pipeline, but for what it waits for. -/
theorem Placement.exists_activity {type : Step.StepType} {before given : Build} {e : Step.Expansion}
    (ht : Placement p b s front t type before given e) {a : Activity}
    (ha : .activity a ∈ e.objects) :
    ∃ a' ∈ b.graph.reduced.activities, a'.id = a.id ∧ a'.work = a.work ∧ a'.inputs = a.inputs := by
  let placed := a.addDependencies (given.waitsFor s.role type.kind.machine t.dependsOn)
  have hplaced : .activity placed ∈ b.graph.objects :=
    ht.objects.subset (List.mem_append_right _ (List.mem_map.mpr ⟨_, ha, rfl⟩))
  have hsame : (placed.setDependencies (b.graph.dag.reduced placed.id)).independent =
      a.independent := by
    rw [Activity.independent_setDependencies, Activity.independent_addDependencies]
  refine ⟨placed.setDependencies (b.graph.dag.reduced placed.id), ?_, congrArg (·.id) hsame,
    congrArg (·.work) hsame, congrArg (·.inputs) hsame⟩
  refine List.mem_filterMap.mpr ⟨.activity _, ?_, rfl⟩
  rw [Workflow.Graph.objects_reduced]
  exact List.mem_map.mpr ⟨_, hplaced, rfl⟩

namespace Compiler

variable {c : Compiler} {d : Definition}

end Compiler

end EtlFlow.Pipeline
