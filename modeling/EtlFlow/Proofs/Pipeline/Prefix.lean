import EtlFlow.Proofs.Pipeline.Staged
import EtlFlow.Proofs.Pipeline.Teardown
/-!
# Further steps

Steps at the end of a definition change nothing about what the steps before them come to.  Building
never looks ahead: it reads the plan, but not the steps that are still to come (`prepare_withSteps`),
and whatever it does adds objects, steps and artifacts behind those that are there (`Grows`).  What
is left of the waiting of an activity depends on earlier activities only, so the compiled pipeline
of a definition is the front of that of a longer one (`compile_prefix`).
-/

namespace EtlFlow.Pipeline

open Outcome
open Relation (ReflTransGen)
open Step (Machine Nodes Descriptor)
open Workflow (Object)

/-- The plan of the same definition with other steps. -/
def Plan.withSteps (p : Plan) (ds : List Descriptor) : Plan :=
  { p with definition := { p.definition with steps := ds } }

namespace Build

variable {p : Plan} {b b' b₁ b₂ : Build} {m : Machine} {s : PlannedStep} {type : Step.StepType}
  {ds : List Descriptor}

/-! ### Building never looks ahead -/

theorem expandWith_withSteps (f : Machine → Build → Except Error Build) :
    expandWith (p.withSteps ds) f = expandWith p f := rfl

theorem expandBootstrap_withSteps {f : PlannedStep → Build → Except Error Build} {position : ℕ}
    {previous : Option String} {vs : List Yaml.Value} :
    expandBootstrap (p.withSteps ds) f m position previous vs b =
      expandBootstrap p f m position previous vs b := by
  induction vs generalizing position previous b with
  | nil => rfl
  | cons v vs ih =>
      simp only [expandBootstrap, ih]
      rfl

theorem prepare_withSteps (depth : ℕ) : prepare (p.withSteps ds) depth = prepare p depth := by
  induction depth with
  | zero => rfl
  | succ depth ih =>
      funext m b
      simp only [prepare, ih, expandBootstrap_withSteps, expandWith_withSteps]
      rfl

theorem expand_withSteps : expand (p.withSteps ds) = expand p := by
  funext s b
  rw [expand, expand, prepare_withSteps, expandWith_withSteps]

theorem expandSteps_withSteps {position : ℕ} {ds' : List Descriptor} :
    expandSteps (p.withSteps ds) position ds' b = expandSteps p position ds' b := by
  induction ds' generalizing position b with
  | nil => rfl
  | cons d ds' ih =>
      simp only [expandSteps, ih, expand_withSteps]
      rfl

/-- Steps behind others are expanded in what these come to. -/
theorem expandSteps_append {position : ℕ} {ds more : List Descriptor} :
    expandSteps p position (ds ++ more) b =
      expandSteps p position ds b >>= expandSteps p (position + ds.length) more := by
  induction ds generalizing position b with
  | nil => rfl
  | cons d ds ih =>
      rw [List.cons_append, expandSteps, expandSteps, bind_assoc]
      refine bind_congr fun id => ?_
      rw [bind_assoc]
      refine bind_congr fun b₁ => ?_
      rw [ih, List.length_cons, Nat.add_assoc, Nat.add_comm 1]

/-! ### Everything is added at the end -/

/-- Objects, steps and artifacts are those of before and others behind them. -/
structure Grows (b b' : Build) : Prop where
  objects : b.graph.objects <+: b'.graph.objects
  steps : b.steps <+: b'.steps
  artifacts : b.artifacts <+: b'.artifacts

theorem Grows.refl (b : Build) : Grows b b :=
  ⟨List.prefix_refl _, List.prefix_refl _, List.prefix_refl _⟩

theorem Grows.trans (h : Grows b b₁) (h' : Grows b₁ b₂) : Grows b b₂ :=
  ⟨h.objects.trans h'.objects, h.steps.trans h'.steps, h.artifacts.trans h'.artifacts⟩

theorem prefix_of_add {g g' : Workflow.Graph} {o : Object} (h : g.add o = .ok g') :
    g.objects <+: g'.objects :=
  ⟨[o], (Workflow.Graph.objects_of_add h).symm⟩

theorem grows_addMachine (h : b.addMachine p m = .ok b') : Grows b b' := by
  rcases addMachine_cases h with
    ⟨_, _, _, rfl⟩ | ⟨_, _, _, g, _, hg, rfl⟩ | ⟨_, _, g, _, hg, rfl⟩ | ⟨_, rfl⟩
  · exact ⟨List.prefix_refl _, List.prefix_refl _, List.prefix_refl _⟩
  · exact ⟨prefix_of_add hg, List.prefix_refl _, List.prefix_refl _⟩
  · exact ⟨prefix_of_add hg, List.prefix_refl _, List.prefix_refl _⟩
  · exact Grows.refl _

theorem grows_provideWarehouse {kind : Step.Kind} (h : b.provideWarehouse p kind = .ok b') :
    Grows b b' := by
  rcases provideWarehouse_cases h with ⟨_, rfl⟩ | ⟨_, _, _, g, hg, rfl⟩
  · exact Grows.refl _
  · exact ⟨prefix_of_add hg, List.prefix_refl _, List.prefix_refl _⟩

theorem grows_resolveInput {input : Nodes} (h : b.resolveInput s = .ok (input, b')) :
    Grows b b' := by
  rcases resolveInput_cases h with ⟨rfl, _⟩ | ⟨_, g, _, hg, rfl, _⟩
  · exact Grows.refl _
  · exact ⟨prefix_of_add hg, List.prefix_refl _, List.prefix_refl _⟩

theorem grows_addStep {c : CompiledStep} {objects : List Object} {artifacts : List Step.Artifact}
    (h : b.addStep c objects artifacts = .ok b') : Grows b b' where
  objects := ⟨objects, (addedStep_of_addStep h).objects.symm⟩
  steps := ⟨[c], (addedStep_of_addStep h).steps.symm⟩
  artifacts := ⟨artifacts, (artifacts_addStep h).symm⟩

theorem grows_place (h : place p s type b = .ok b') : Grows b b' := by
  obtain ⟨b₁, h₁, input, b₂, h₂, dependsOn, _, e, _, h⟩ := place_eq_ok_iff.mp h
  exact ((grows_provideWarehouse h₁).trans (grows_resolveInput h₂)).trans (grows_addStep h)

theorem grows_change (h : Change p b b') : Grows b b' := by
  cases h with
  | machine _ h => exact grows_addMachine h
  | place _ _ _ h => exact grows_place h
  | @prepare m _ _ _ _ _ =>
      cases m <;> exact ⟨List.prefix_refl _, List.prefix_refl _, List.prefix_refl _⟩

theorem grows_run (h : ReflTransGen (Change p) b b') : Grows b b' := by
  induction h with
  | refl => exact Grows.refl b
  | tail _ hchange ih => exact ih.trans (grows_change hchange)

/-- Where no teardown is declared, nothing comes behind the steps of the definition. -/
theorem expandTeardown_of_none (h : p.teardown? = .ok none) : expandTeardown p b = .ok b := by
  unfold expandTeardown
  rw [h]
  rfl

end Build

namespace Compiler

variable {c : Compiler} {d : Definition} {pl : Pipeline} {more : List Descriptor}

theorem plan_withSteps (ds : List Descriptor) :
    c.plan { d with steps := ds } = (·.withSteps ds) <$> c.plan d := by
  unfold plan
  simp only [map_bind, map_pure]
  rfl

theorem teardown?_eq_none {p : Plan} (hp : c.plan d = .ok p) (hc : c.settings.teardown = none)
    (hd : d.teardown = none) : p.teardown? = .ok none := by
  obtain ⟨hdefinition, hsettings⟩ := plan_cases hp
  rw [Plan.teardown?, hdefinition, hsettings, hc, hd]
  rfl

/-- What further steps come to is built behind what the others come to. -/
theorem built_append {b' : Build} (hc : c.settings.teardown = none) (hd : d.teardown = none)
    (h : c.built { d with steps := d.steps ++ more } = .ok b') :
    ∃ b, c.built d = .ok b ∧ b.Grows b' := by
  obtain ⟨p', hp', start, hstart, hbuild⟩ := built_eq_ok_iff.mp h
  simp only [plan_withSteps, map_eq_pure_bind, bind_eq_ok_iff, pure_eq_ok_iff] at hp'
  obtain ⟨p, hp, rfl⟩ := hp'
  have hnone := teardown?_eq_none hp hc hd
  have hnone' : (p.withSteps (d.steps ++ more)).teardown? = .ok none := hnone
  simp only [build, bind_eq_ok_iff, Build.expandSteps_withSteps] at hbuild
  obtain ⟨b₀, h₀, b₂, h₂, h⟩ := hbuild
  rw [Plan.withSteps, Build.expandSteps_append, bind_eq_ok_iff] at h₂
  obtain ⟨b₁, h₁, h₂⟩ := h₂
  rw [Build.expandTeardown_of_none hnone'] at h
  cases h
  have hb₁ := (Build.run_expandSteps (settled_base h₀) h₁).2
  refine ⟨b₁, built_eq_ok_iff.mpr ⟨p, hp, start, hstart, ?_⟩, ?_⟩
  · simp only [build, bind_eq_ok_iff, (plan_cases hp).1]
    exact ⟨b₀, h₀, b₁, h₁, Build.expandTeardown_of_none hnone⟩
  · exact Build.grows_run (Build.run_expandSteps hb₁ h₂).1

theorem artifacts_of_built {b : Build} (hb : c.built d = .ok b)
    (h : c.compileDefinition d = .ok pl) : pl.artifacts = b.artifacts := by
  obtain ⟨_, _, b', _, _, hb', _, _, hartifacts⟩ := build_of_compileDefinition h
  rw [hb] at hb'
  cases hb'
  exact hartifacts

/-- Where no teardown is declared, a definition compiles whenever it does so with further steps
behind its own.  The objects, steps and artifacts of its pipeline, and so its records, are then the
front of those of the longer one; an activity among the objects waits in both for the same ones. -/
theorem compile_prefix {pl' : Pipeline} (hc : c.settings.teardown = none) (hd : d.teardown = none)
    (h : c.withoutHooks.compile { d with steps := d.steps ++ more } = .ok pl') :
    ∃ pl, c.withoutHooks.compile d = .ok pl ∧ pl.graph.objects <+: pl'.graph.objects ∧
      pl.graph.records <+: pl'.graph.records ∧ pl.steps <+: pl'.steps ∧
      pl.artifacts <+: pl'.artifacts := by
  rw [compile_withoutHooks] at h
  obtain ⟨b', hb', hgraph', hsteps'⟩ := compileDefinition_cases h
  obtain ⟨b, hb, hgrows⟩ := built_append hc hd hb'
  obtain ⟨pl, hpl⟩ := exists_compileDefinition hb
  obtain ⟨b₁, hb₁, hgraph, hsteps⟩ := compileDefinition_cases hpl
  rw [hb] at hb₁
  cases hb₁
  have hobjects : pl.graph.objects <+: pl'.graph.objects := by
    rw [hgraph, hgraph']
    exact (grounded_built hb').reduced_front hgrows.objects
  refine ⟨pl, (compile_withoutHooks c d).trans hpl, hobjects, hobjects.map Object.record, ?_, ?_⟩
  · rw [hsteps, hsteps']
    exact hgrows.steps
  · rw [artifacts_of_built hb hpl, artifacts_of_built hb' h]
    exact hgrows.artifacts

/-- A directory, a command that reads it, and nothing behind these. -/
def cleaned : Definition := { clicks with steps := clicks.steps.take 2, teardown := none }

theorem compile_prefix_cleaned :
    ∃ pl pl', sample.withoutHooks.compile cleaned = .ok pl ∧
      sample.withoutHooks.compile { clicks with teardown := none } = .ok pl' ∧
      pl.graph.records <+: pl'.graph.records ∧ pl.steps <+: pl'.steps ∧
      pl.artifacts <+: pl'.artifacts ∧
      pl.steps.map CompiledStep.id = ["raw", "clean"] ∧
      pl'.steps.map CompiledStep.id = ["raw", "clean", "count"] := by
  have hids : (sample.built { clicks with teardown := none }).toOption.map
      (fun b => b.steps.map CompiledStep.id) = some ["raw", "clean", "count"] := by decide +kernel
  have hids' : (sample.built cleaned).toOption.map (fun b => b.steps.map CompiledStep.id) =
      some ["raw", "clean"] := by decide +kernel
  obtain ⟨pl', hpl', hids⟩ := compile_of_steps hids
  obtain ⟨pl₁, hpl₁, hids'⟩ := compile_of_steps hids'
  have hlonger : sample.withoutHooks.compile
      { cleaned with steps := cleaned.steps ++ clicks.steps.drop 2 } = .ok pl' := hpl'
  obtain ⟨pl, hpl, _, hrecords, hsteps, hartifacts⟩ := compile_prefix rfl rfl hlonger
  rw [hpl] at hpl₁
  cases hpl₁
  exact ⟨_, pl', hpl, hpl', hrecords, hsteps, hartifacts, hids', hids⟩

end Compiler

end EtlFlow.Pipeline
