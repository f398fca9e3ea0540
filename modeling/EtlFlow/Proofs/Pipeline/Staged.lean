import EtlFlow.Proofs.Pipeline.Closed
import EtlFlow.Proofs.Step.Staged
/-!
# What a pipeline stages

The artifacts of a compiled pipeline are those of its steps, in their order, each right below the
source directory of its step (`stages_compileDefinition`).  Step ids that agree up to slashes at the
ends share a directory, so two artifacts have one destination just where their steps share one and
they have the same name and kind there (`destination_inj`).
-/

namespace EtlFlow.Pipeline

open Outcome
open Relation (ReflTransGen)
open Step (Staged Machine)
open Storage (Location IsName)

/-! ### Directories -/

theorem isHome_joinDirectory {l : Location} {part : String} (hl : Storage.IsTrimmed l.key)
    (hp : IsName part) : (l.joinDirectory part).IsHome := by
  by_cases h : l.key = ""
  · rw [Location.joinDirectory, Location.keyBelow, if_pos h, hp.isTrimmed.dropAround,
      Location.directory, hp.isTrimmed.dropAround]
    exact ⟨hp.1, hp.isTrimmed⟩
  · exact Location.IsHome.joinDirectory ⟨h, hl⟩ part

/-- Below the source directory of a pipeline each step has a directory of its own. -/
theorem isHome_source {etl : Settings.Etl} {name version : String}
    {frequency : Workflow.Frequency} {p : Paths}
    (h : Paths.ofPipeline etl name version frequency = .ok p) : p.source.IsHome := by
  simp only [Paths.ofPipeline, bind_eq_ok_iff, pure_eq_ok_iff] at h
  obtain ⟨bucket, -, rfl⟩ := h
  have base : Storage.IsTrimmed (Location.directory bucket etl.basePath).key :=
    Storage.isTrimmed_dropAround _
  exact ((isHome_joinDirectory base (by decide)).joinDirectory name).joinDirectory version

/-! ### The artifacts of a run -/

/-- Steps, each with what it stages. -/
abbrev Staging := List (CompiledStep × List Staged)

/-- The artifacts of steps that stage below `paths`. -/
def Staging.artifacts (paths : Paths) (staging : Staging) : List Step.Artifact :=
  staging.flatMap fun (s, items) => items.map (·.artifact (paths.forStep s.id).source)

/-- The steps are those of `staging`, and the artifacts are what it lists, which the kinds of the
steps allow. -/
structure StagedAs (paths : Paths) (steps : List CompiledStep) (artifacts : List Step.Artifact)
    (staging : Staging) : Prop where
  steps : steps = staging.map (·.1)
  artifacts : artifacts = staging.artifacts paths
  stages : ∀ q ∈ staging, Step.Stages q.1.kind q.2

theorem stagedAs_nil (paths : Paths) : StagedAs paths [] [] [] := ⟨rfl, rfl, by simp⟩

/-- One more step with what it stages. -/
theorem StagedAs.append {paths : Paths} {steps : List CompiledStep}
    {artifacts : List Step.Artifact} {staging : Staging} {s : CompiledStep} {items : List Staged}
    (h : StagedAs paths steps artifacts staging) (hs : Step.Stages s.kind items) :
    StagedAs paths (steps ++ [s])
      (artifacts ++ items.map (·.artifact (paths.forStep s.id).source))
      (staging ++ [(s, items)]) where
  steps := by rw [h.steps, List.map_append]; rfl
  artifacts := by
    rw [h.artifacts, Staging.artifacts, Staging.artifacts, List.flatMap_append,
      List.flatMap_singleton]
  stages := by
    rw [List.forall_mem_append, List.forall_mem_singleton]
    exact ⟨h.stages, hs⟩

namespace Build

variable {p : Plan} {b b' : Build} {m : Machine} {s : PlannedStep} {type : Step.StepType}
  {staging : Staging}

theorem artifacts_addMachine (h : b.addMachine p m = .ok b') : b'.artifacts = b.artifacts := by
  rcases addMachine_cases h with
    ⟨_, _, _, rfl⟩ | ⟨_, _, _, _, _, _, rfl⟩ | ⟨_, _, _, _, _, rfl⟩ | ⟨_, rfl⟩ <;> rfl

theorem artifacts_provideWarehouse {kind : Step.Kind} (h : b.provideWarehouse p kind = .ok b') :
    b'.artifacts = b.artifacts := by
  rcases provideWarehouse_cases h with ⟨_, rfl⟩ | ⟨_, _, _, _, _, rfl⟩ <;> rfl

theorem artifacts_resolveInput {input : Step.Nodes} (h : b.resolveInput s = .ok (input, b')) :
    b'.artifacts = b.artifacts := by
  rcases resolveInput_cases h with ⟨rfl, _⟩ | ⟨_, _, _, _, rfl, _⟩ <;> rfl

theorem artifacts_addStep {s : CompiledStep} {objects : List Workflow.Object}
    {artifacts : List Step.Artifact} (h : b.addStep s objects artifacts = .ok b') :
    b'.artifacts = b.artifacts ++ artifacts := by
  simp only [addStep, bind_eq_ok_iff, mapError_eq_ok_iff, pure_eq_ok_iff] at h
  obtain ⟨g, -, rfl⟩ := h
  have kept (b : Build) (output : Step.Nodes) :
      (b.addOutput s.id output).artifacts = b.artifacts := by
    cases output <;> rfl
  split <;> exact kept _ _

/-- A step that is placed stages right below its source directory. -/
theorem stagedAs_place (hb : StagedAs p.paths b.steps b.artifacts staging)
    (h : place p s type b = .ok b') :
    ∃ staging', StagedAs p.paths b'.steps b'.artifacts staging' := by
  obtain ⟨b₁, h₁, input, b₂, h₂, dependsOn, _, e, he, h⟩ := place_eq_ok_iff.mp h
  obtain ⟨items, stages, artifacts⟩ := Step.expand_stages he
  have steps := (addedStep_of_addStep h).steps
  rw [(sameSteps_resolveInput h₂).steps, (sameSteps_provideWarehouse h₁).steps] at steps
  rw [steps, artifacts_addStep h, artifacts, artifacts_resolveInput h₂,
    artifacts_provideWarehouse h₁]
  exact ⟨_, hb.append (s := compiled s type.kind input dependsOn e) stages⟩

theorem stagedAs_change (hb : StagedAs p.paths b.steps b.artifacts staging)
    (h : Change p b b') : ∃ staging', StagedAs p.paths b'.steps b'.artifacts staging' := by
  cases h with
  | machine _ h =>
    rw [(sameSteps_addMachine h).steps, artifacts_addMachine h]
    exact ⟨staging, hb⟩
  | place _ _ _ h => exact stagedAs_place hb h
  | prepare =>
    rename_i m _ s _ _ _
    refine ⟨staging, ?_⟩
    cases m <;> exact hb

theorem stagedAs_run (h : ReflTransGen (Change p) b b')
    (hb : ∃ staging, StagedAs p.paths b.steps b.artifacts staging) :
    ∃ staging, StagedAs p.paths b'.steps b'.artifacts staging := by
  induction h with
  | refl => exact hb
  | tail _ change ih =>
    obtain ⟨staging, hb⟩ := ih
    exact stagedAs_change hb change

end Build

theorem stagedAs_build {p : Plan} {start : Time.Instant} {b : Build}
    (h : Compiler.build p start = .ok b) :
    ∃ staging, StagedAs p.paths b.steps b.artifacts staging := by
  obtain ⟨b₀, b₁, h₀, hrun, hends⟩ := build_run h
  have first : ∃ staging, StagedAs p.paths b₀.steps b₀.artifacts staging := by
    obtain ⟨_, _, _, _, rfl, _⟩ := base_spec h₀
    exact ⟨[], stagedAs_nil _⟩
  obtain ⟨staging, hb₁⟩ := Build.stagedAs_run hrun first
  cases hends with
  | without _ => exact ⟨staging, hb₁⟩
  | teardown _ _ hplace => exact Build.stagedAs_place hb₁ hplace

/-- What a compiled pipeline stages, step by step. -/
def Stages (p : Pipeline) (staging : Staging) : Prop :=
  StagedAs p.paths p.steps p.artifacts staging

/-- A compiled pipeline has the directories of its plan, and the steps and artifacts of its build.
-/
theorem build_of_compileDefinition {c : Compiler} {d : Definition} {p : Pipeline}
    (h : c.compileDefinition d = .ok p) : ∃ plan start b, c.plan d = .ok plan ∧
      Compiler.build plan start = .ok b ∧ c.built d = .ok b ∧ p.paths = plan.paths ∧
      p.steps = b.steps ∧ p.artifacts = b.artifacts := by
  simp only [Compiler.compileDefinition, bind_eq_ok_iff, mapError_eq_ok_iff, pure_eq_ok_iff] at h
  obtain ⟨plan, hplan, start, hstart, b, hb, g, -, rfl⟩ := h
  exact ⟨plan, start, b, hplan, hb,
    Compiler.built_eq_ok_iff.mpr ⟨plan, hplan, start, hstart, hb⟩, rfl, rfl, rfl⟩

theorem stages_compileDefinition {c : Compiler} {d : Definition} {p : Pipeline}
    (h : c.compileDefinition d = .ok p) : p.paths.source.IsHome ∧ ∃ staging, p.Stages staging := by
  obtain ⟨plan, start, b, hplan, hb, -, paths, steps, artifacts⟩ := build_of_compileDefinition h
  simp only [Stages, paths, steps, artifacts]
  refine ⟨?_, stagedAs_build hb⟩
  simp only [Compiler.plan, bind_eq_ok_iff, mapError_eq_ok_iff, pure_eq_ok_iff] at hplan
  obtain ⟨paths, hpaths, rfl⟩ := hplan
  exact isHome_source hpaths

/-! ### Destinations -/

/-- All that is staged, with the ids of the steps. -/
def Staging.items (staging : Staging) : List (String × Staged) :=
  staging.flatMap fun (s, items) => items.map (s.id, ·)

/-- The artifact that a step of an id stages. -/
def Paths.artifact (paths : Paths) (x : String × Staged) : Step.Artifact :=
  x.2.artifact (paths.forStep x.1).source

/-- What tells the destination: the id of the step without slashes at its ends, the name, and
whether it is a directory. -/
def itemKey (x : String × Staged) : String × String × Bool := (Text.dropAround '/' x.1, x.2.key)

theorem Staging.artifacts_eq (paths : Paths) (staging : Staging) :
    staging.artifacts paths = staging.items.map paths.artifact := by
  rw [Staging.artifacts, Staging.items, List.map_flatMap]
  refine congrArg (staging.flatMap ·) (funext fun q => ?_)
  rw [List.map_map]
  rfl

theorem StagedAs.isName {paths : Paths} {steps : List CompiledStep}
    {artifacts : List Step.Artifact} {staging : Staging}
    (h : StagedAs paths steps artifacts staging) {x : String × Staged} (hx : x ∈ staging.items) :
    IsName x.2.name := by
  obtain ⟨q, hq, hx⟩ := List.mem_flatMap.mp hx
  obtain ⟨i, hi, rfl⟩ := List.mem_map.mp hx
  exact (h.stages q hq).isName i hi

/-- Two artifacts go to one destination just where their steps share a directory and they have the
same name and kind. -/
theorem destination_inj {paths : Paths} (hl : paths.source.IsHome) {x y : String × Staged}
    (hx : IsName x.2.name) (hy : IsName y.2.name) :
    (paths.artifact x).destination = (paths.artifact y).destination ↔ itemKey x = itemKey y := by
  have bucket : (paths.source.joinDirectory x.1).bucket =
      (paths.source.joinDirectory y.1).bucket := by
    rw [Location.bucket_joinDirectory, Location.bucket_joinDirectory]
  rw [itemKey, itemKey, Prod.mk.injEq, ← hl.key_joinDirectory_inj]
  exact Staged.destination_inj (hl.joinDirectory x.1) (hl.joinDirectory y.1) bucket hx hy

end EtlFlow.Pipeline
