import EtlFlow.Proofs.Pipeline.Run
/-!
# How building fails

A build fails early: while a step is expanded, and never because of the order of its activities or
because of a reference that nothing answers (`failsEarly_build`).
-/

namespace EtlFlow.Pipeline

open Outcome
open Step (Machine Nodes Descriptor)
open Workflow (Object)

/-- The error is found before the graph is looked at as a whole. -/
def Error.Early : Error → Prop
  | .order _ => False
  | .workflow (.unknownReference ..) => False
  | _ => True

/-- A computation that fails with early errors only. -/
def FailsEarly {α : Type} (x : Except Error α) : Prop := ∀ e, x = .error e → e.Early

section Steps

variable {α β ε : Type} {x : Except Error α} {f : α → Except Error β} {a : α}

theorem failsEarly_ok : FailsEarly (.ok a : Except Error α) := nofun

theorem failsEarly_pure : FailsEarly (pure a : Except Error α) := nofun

theorem failsEarly_error {e : Error} (he : e.Early) : FailsEarly (.error e : Except Error α) := by
  intro e' h
  cases h
  exact he

theorem FailsEarly.bind (hx : FailsEarly x) (hf : ∀ a, x = .ok a → FailsEarly (f a)) :
    FailsEarly (x >>= f) := by
  intro e h
  rcases bind_eq_error_iff.mp h with h | ⟨a, ha, h⟩
  · exact hx e h
  · exact hf a ha e h

theorem failsEarly_mapError {y : Except ε α} {g : ε → Error}
    (hg : ∀ e, y = .error e → (g e).Early) :
    FailsEarly (y.mapError g) := by
  intro e h
  obtain ⟨e', he', rfl⟩ := mapError_eq_error_iff.mp h
  exact hg e' he'

end Steps

namespace Build

variable {p : Plan} {b : Build} {m : Machine} {s : PlannedStep} {type : Step.StepType}

/-! ### Objects -/

theorem failsEarly_addObject (b : Build) (o : Object) : FailsEarly (b.addObject o) := by
  unfold addObject
  refine FailsEarly.bind (failsEarly_mapError fun e he => ?_) fun g _ => failsEarly_pure
  rw [Workflow.Graph.error_of_add he]
  trivial

theorem failsEarly_addMachine : FailsEarly (b.addMachine p m) := by
  cases m with
  | ec2 =>
      simp only [addMachine]
      split
      · exact failsEarly_ok
      · refine FailsEarly.bind (failsEarly_mapError fun _ _ => trivial) fun r _ => ?_
        exact (failsEarly_addObject b _).bind fun _ _ => failsEarly_pure
  | emr =>
      refine FailsEarly.bind (failsEarly_mapError fun _ _ => trivial) fun r _ => ?_
      exact (failsEarly_addObject b _).bind fun _ _ => failsEarly_pure
  | none => exact failsEarly_ok

theorem failsEarly_provideWarehouse {kind : Step.Kind} :
    FailsEarly (b.provideWarehouse p kind) := by
  unfold provideWarehouse requireWarehouse
  split
  · split
    · exact failsEarly_ok
    · refine FailsEarly.bind (failsEarly_mapError fun _ _ => trivial) fun d _ => ?_
      exact (failsEarly_addObject b _).bind fun _ _ => failsEarly_pure
  · exact failsEarly_ok

theorem failsEarly_node {step name : String} : FailsEarly (b.node step name) := by
  unfold node
  split
  · exact failsEarly_ok
  · exact failsEarly_error trivial

theorem failsEarly_resolveInput : FailsEarly (b.resolveInput s) := by
  unfold resolveInput
  split
  · exact failsEarly_error trivial
  · exact failsEarly_node.bind fun _ _ => failsEarly_pure
  · refine FailsEarly.bind ?_ fun _ _ => failsEarly_pure
    intro e h
    obtain ⟨⟨name, shown⟩, _, h⟩ := exists_of_mapM_eq_error h
    exact (failsEarly_node.bind fun _ _ => failsEarly_pure) e h
  · refine FailsEarly.bind (failsEarly_mapError fun _ _ => trivial) fun path _ => ?_
    exact (failsEarly_addObject b _).bind fun _ _ => failsEarly_pure
  · split
    · exact failsEarly_ok
    · exact failsEarly_ok

theorem failsEarly_predecessors {input : Nodes} : FailsEarly (b.predecessors s input) := by
  simp only [predecessors]
  split
  · exact failsEarly_error trivial
  · exact failsEarly_ok

/-! ### Steps -/

theorem failsEarly_addStep {c : CompiledStep} {objects : List Object}
    {artifacts : List Step.Artifact} :
    FailsEarly (b.addStep c objects artifacts) := by
  unfold addStep
  refine FailsEarly.bind (failsEarly_mapError fun e he => ?_) fun g _ => failsEarly_pure
  obtain ⟨id, rfl⟩ := Workflow.Graph.error_of_addAll he
  trivial

theorem failsEarly_place : FailsEarly (place p s type b) := by
  refine failsEarly_provideWarehouse.bind fun b₁ _ => ?_
  refine failsEarly_resolveInput.bind fun input _ => ?_
  refine failsEarly_predecessors.bind fun dependsOn _ => ?_
  exact FailsEarly.bind (failsEarly_mapError fun _ _ => trivial) fun e _ => failsEarly_addStep

theorem failsEarly_resolve {d : Descriptor} : FailsEarly (p.resolve d) :=
  failsEarly_mapError fun _ _ => trivial

theorem failsEarly_stepId {start : String} {d : Descriptor} {position : ℕ} :
    FailsEarly (p.stepId start d position) := by
  unfold Plan.stepId
  split
  · exact failsEarly_ok
  · exact failsEarly_resolve.bind fun _ _ => failsEarly_pure

theorem failsEarly_expandWith {prepare : Machine → Build → Except Error Build}
    (hprepare : ∀ m b, FailsEarly (prepare m b)) : FailsEarly (expandWith p prepare s b) := by
  have hrest : FailsEarly
      (p.resolve s.descriptor >>= fun type => prepare type.kind.machine b >>= place p s type) :=
    failsEarly_resolve.bind fun type _ => (hprepare _ b).bind fun _ _ => failsEarly_place
  simp only [expandWith]
  split
  · exact failsEarly_error trivial
  · exact hrest

theorem failsEarly_expandBootstrap {expand : PlannedStep → Build → Except Error Build}
    (hexpand : ∀ s b, FailsEarly (expand s b)) {position : ℕ} {previous : Option String}
    {vs : List Yaml.Value} :
    FailsEarly (expandBootstrap p expand m position previous vs b) := by
  induction vs generalizing position previous b with
  | nil => exact failsEarly_ok
  | cons v vs ih =>
      refine FailsEarly.bind (failsEarly_mapError fun _ _ => trivial) fun d _ => ?_
      exact failsEarly_stepId.bind fun id _ => (hexpand _ b).bind fun _ _ => ih

theorem failsEarly_prepare {depth : ℕ} : FailsEarly (prepare p depth m b) := by
  induction depth generalizing m b with
  | zero => exact failsEarly_ok
  | succ depth ih =>
      unfold prepare
      split
      · exact failsEarly_ok
      · refine failsEarly_addMachine.bind fun b₁ _ => ?_
        exact failsEarly_expandBootstrap fun s b => failsEarly_expandWith fun m b => ih

theorem failsEarly_expand : FailsEarly (expand p s b) :=
  failsEarly_expandWith fun _ _ => failsEarly_prepare

theorem failsEarly_expandSteps {ds : List Descriptor} {position : ℕ} :
    FailsEarly (expandSteps p position ds b) := by
  induction ds generalizing position b with
  | nil => exact failsEarly_ok
  | cons d ds ih => exact failsEarly_stepId.bind fun id _ => failsEarly_expand.bind fun _ _ => ih

theorem failsEarly_expandTeardown : FailsEarly (expandTeardown p b) := by
  have hteardown : FailsEarly p.teardown? := by
    unfold Plan.teardown?
    split
    · exact failsEarly_ok
    · exact failsEarly_mapError fun _ _ => trivial
  refine hteardown.bind fun t _ => ?_
  cases t with
  | none => exact failsEarly_pure
  | some d =>
      exact failsEarly_resolve.bind fun type _ => failsEarly_prepare.bind fun _ _ => failsEarly_expand

end Build

/-! ### Whole builds -/

theorem failsEarly_base {p : Plan} {start : Time.Instant} : FailsEarly (Compiler.base p start) := by
  have hrole : FailsEarly (p.settings.etl.pipelineRole.mapError Error.settings) :=
    failsEarly_mapError fun _ _ => trivial
  have hdefaults (b : Build) : FailsEarly (do
      b.addObject (.defaults {
        role := ← p.settings.etl.pipelineRole.mapError Error.settings
        resourceRole := ← p.settings.etl.machineRole.mapError .settings
        logs := p.paths.logs
        schedule := Workflow.Schedule.id
        onFail := p.topic.map fun _ => Workflow.Alarm.id })) := by
    refine hrole.bind fun role _ => ?_
    refine FailsEarly.bind (failsEarly_mapError fun _ _ => trivial) fun _ _ => ?_
    exact Build.failsEarly_addObject b _
  simp only [Compiler.base]
  refine (Build.failsEarly_addObject _ _).bind fun b _ => ?_
  split
  · refine hrole.bind fun role _ => ?_
    exact (Build.failsEarly_addObject _ _).bind fun b _ => hdefaults b
  · exact hdefaults b

/-- Building a pipeline fails early. -/
theorem failsEarly_build {p : Plan} {start : Time.Instant} : FailsEarly (Compiler.build p start) :=
  failsEarly_base.bind fun _ _ =>
    Build.failsEarly_expandSteps.bind fun _ _ => Build.failsEarly_expandTeardown

end EtlFlow.Pipeline
