import EtlFlow.Proofs.Pipeline.Nesting
import EtlFlow.Proofs.Step.Objects
/-!
# Resources on demand

The resources of a compiled pipeline are those that its steps need, one object for each, and a list
of steps that prepare a machine is worked off once when a step runs on that machine and not at all
otherwise (`resources_on_demand`).  A build keeps account of its resources: an object is added when
the resource is not recorded yet, and it is recorded at once (`Stocked`).
-/

namespace EtlFlow.Pipeline

open Outcome
open Relation (ReflTransGen)
open Step (Machine Nodes)
open Workflow (Object Resource)

/-- The resources that steps need.  Where a worker group stands in for the machine of the pipeline,
no step needs that machine. -/
def Plan.needs (p : Plan) (steps : List CompiledStep) : Resource → Bool
  | .ec2 => p.workerGroup.isNone && steps.any (·.kind.machine = .ec2)
  | .emr => steps.any (·.kind.machine = .emr)
  | .redshift => steps.any (·.kind.usesWarehouse)

namespace Build

variable {p : Plan} {b b' : Build} {m : Machine} {s : PlannedStep} {type : Step.StepType}

/-! ### Keeping account -/

/-- The resource is recorded. -/
def records (p : Plan) (b : Build) : Resource → Bool
  | .ec2 => p.workerGroup.isNone && b.isReady .ec2
  | .emr => b.isReady .emr
  | .redshift => b.warehouse.isSome

/-- Each recorded resource is one object, and no other one is an object. -/
def Stocked (p : Plan) (b : Build) : Prop := ∀ r, b.graph.stock r = (b.records p r).toNat

theorem records_congr (hready : ∀ m, b'.isReady m = b.isReady m)
    (hwarehouse : b'.warehouse = b.warehouse) : b'.records p = b.records p := by
  funext r
  cases r <;> simp only [records, hready, hwarehouse]

/-- A step that is placed records no resource. -/
theorem AddedStep.records {c : CompiledStep} {objects : List Object}
    (h : AddedStep b b' c objects) : b'.records p = b.records p :=
  records_congr h.isReady h.warehouse

/-- A build that differs in objects that are no resources. -/
theorem Stocked.of_addAll {os : List Object} (hb : b.Stocked p)
    (hobjects : b'.graph.objects = b.graph.objects ++ os) (hos : ∀ o ∈ os, o.resource? = none)
    (hready : ∀ m, b'.isReady m = b.isReady m) (hwarehouse : b'.warehouse = b.warehouse) :
    b'.Stocked p := by
  intro r
  rw [Workflow.Graph.stock_of_addAll_none hobjects hos, hb, records_congr hready hwarehouse]

theorem stocked_addMachine (hb : b.Stocked p) (hready : b.isReady m = false)
    (h : b.addMachine p m = .ok b') : b'.Stocked p := by
  rcases addMachine_cases h with
    ⟨rfl, group, hgroup, rfl⟩ | ⟨rfl, hgroup, _, g, _, hg, rfl⟩ | ⟨rfl, _, g, _, hg, rfl⟩ | ⟨rfl, rfl⟩
  · intro r
    have hr := hb r
    cases r <;> simp_all [records, isReady]
  · intro r
    rw [Workflow.Graph.stock_of_addAll (Workflow.Graph.objects_of_add hg), hb]
    cases r <;> simp_all [records, isReady, Object.resource?]
  · intro r
    rw [Workflow.Graph.stock_of_addAll (Workflow.Graph.objects_of_add hg), hb]
    cases r <;> simp_all [records, isReady, Object.resource?]
  · exact hb

theorem stocked_provideWarehouse {kind : Step.Kind} (hb : b.Stocked p)
    (h : b.provideWarehouse p kind = .ok b') : b'.Stocked p := by
  rcases provideWarehouse_cases h with ⟨_, rfl⟩ | ⟨_, hnone, _, g, hg, rfl⟩
  · exact hb
  · intro r
    rw [Workflow.Graph.stock_of_addAll (Workflow.Graph.objects_of_add hg), hb]
    cases r <;> simp_all [records, isReady, Object.resource?]

theorem stocked_resolveInput {input : Nodes} (hb : b.Stocked p)
    (h : b.resolveInput s = .ok (input, b')) : b'.Stocked p := by
  rcases resolveInput_cases h with ⟨rfl, _⟩ | ⟨n, g, _, hg, rfl, _⟩
  · exact hb
  · refine hb.of_addAll (Workflow.Graph.objects_of_add hg) ?_ (fun m => ?_) rfl
    · exact List.forall_mem_singleton.mpr rfl
    · cases m <;> rfl

theorem stocked_place (hb : b.Stocked p) (h : place p s type b = .ok b') : b'.Stocked p := by
  obtain ⟨b₁, h₁, input, b₂, h₂, dependsOn, _, e, he, hadd⟩ := place_eq_ok_iff.mp h
  have hadded := addedStep_of_addStep hadd
  refine (stocked_resolveInput (stocked_provideWarehouse hb h₁) h₂).of_addAll hadded.objects ?_
    hadded.isReady hadded.warehouse
  unfold placed
  rw [List.forall_mem_map]
  intro o ho
  rw [Object.resource?_mapActivity]
  exact Step.expand_ownObjects he o ho

/-! ### The warehouse -/

/-- The warehouse is there just where a step uses it. -/
def Warehoused (b : Build) : Prop := b.warehouse.isSome = b.steps.any (·.kind.usesWarehouse)

theorem warehouse_provideWarehouse {kind : Step.Kind} (h : b.provideWarehouse p kind = .ok b') :
    b'.warehouse.isSome = (b.warehouse.isSome || kind.usesWarehouse) := by
  rcases provideWarehouse_cases h with ⟨hthere, rfl⟩ | ⟨huses, _, _, _, _, rfl⟩
  · cases huses : kind.usesWarehouse
    · rw [Bool.or_false]
    · rw [Bool.or_true, hthere huses]
  · rw [huses, Bool.or_true]
    rfl

theorem warehouse_resolveInput {input : Nodes} (h : b.resolveInput s = .ok (input, b')) :
    b'.warehouse = b.warehouse := by
  rcases resolveInput_cases h with ⟨rfl, _⟩ | ⟨_, _, _, _, rfl, _⟩ <;> rfl

theorem warehouse_addMachine (h : b.addMachine p m = .ok b') : b'.warehouse = b.warehouse := by
  rcases addMachine_cases h with
    ⟨_, _, _, rfl⟩ | ⟨_, _, _, _, _, _, rfl⟩ | ⟨_, _, _, _, _, rfl⟩ | ⟨_, rfl⟩ <;> rfl

theorem warehoused_place (hb : b.Warehoused) (h : place p s type b = .ok b') : b'.Warehoused := by
  obtain ⟨b₁, h₁, input, b₂, h₂, dependsOn, _, e, _, hadd⟩ := place_eq_ok_iff.mp h
  obtain ⟨c, hc, _, _, hkind⟩ := steps_of_place h
  unfold Warehoused
  rw [(addedStep_of_addStep hadd).warehouse, warehouse_resolveInput h₂,
    warehouse_provideWarehouse h₁, hb, hc, List.any_append, List.any_cons, hkind, List.any_nil,
    Bool.or_false]

/-! ### Runs -/

/-- Every change of a build keeps account of the resources. -/
theorem stocked_change (hb : b.Stocked p ∧ b.Warehoused) (h : Change p b b') :
    b'.Stocked p ∧ b'.Warehoused := by
  obtain ⟨hstocked, hwarehoused⟩ := hb
  cases h with
  | machine hready h =>
      refine ⟨stocked_addMachine hstocked hready h, ?_⟩
      unfold Warehoused
      rw [warehouse_addMachine h, (sameSteps_addMachine h).steps]
      exact hwarehoused
  | place _ _ _ h => exact ⟨stocked_place hstocked h, warehoused_place hwarehoused h⟩
  | @prepare m _ _ _ _ _ =>
      cases m <;> exact ⟨fun r => by cases r <;> exact hstocked _, hwarehoused⟩

theorem stocked_run (hb : b.Stocked p ∧ b.Warehoused) (h : ReflTransGen (Change p) b b') :
    b'.Stocked p ∧ b'.Warehoused := by
  induction h with
  | refl => exact hb
  | tail _ hchange ih => exact stocked_change ih hchange

end Build

/-- The objects that every pipeline has are no resources. -/
theorem stocked_base {p : Plan} {start : Time.Instant} {b : Build}
    (h : Compiler.base p start = .ok b) : b.Stocked p ∧ b.Warehoused := by
  obtain ⟨s, d, g, alarm, rfl, hobjects, _⟩ := base_spec h
  refine ⟨fun r => ?_, rfl⟩
  have hnone : ∀ o ∈ g.objects, o.resource? = none := by
    rw [hobjects]
    cases alarm <;> simp [Object.resource?]
  have hempty : g.objects = ({} : Workflow.Graph).objects ++ g.objects := rfl
  rw [show Workflow.Graph.stock _ r = _ from Workflow.Graph.stock_of_addAll_none hempty hnone]
  cases r <;> simp [Build.records, Build.isReady, Workflow.Graph.stock]

theorem stocked_build {p : Plan} {start : Time.Instant} {b : Build}
    (h : Compiler.build p start = .ok b) : b.Stocked p ∧ b.Warehoused := by
  obtain ⟨b₀, b₁, h₀, hrun, hends⟩ := build_run h
  have hb₁ := Build.stocked_run (stocked_base h₀) hrun
  cases hends with
  | without _ => exact hb₁
  | teardown _ _ hplace =>
      exact ⟨Build.stocked_place hb₁.1 hplace, Build.warehoused_place hb₁.2 hplace⟩

/-- At the end the recorded resources are those that the steps need. -/
theorem records_build {p : Plan} {start : Time.Instant} {b : Build}
    (h : Compiler.build p start = .ok b) (r : Resource) : b.records p r = p.needs b.steps r := by
  have hsupplied := supplied_build h
  have hmachine (m : Machine) (hm : m ≠ .none) :
      b.isReady m = b.steps.any (·.kind.machine = m) := by
    rw [Bool.eq_iff_iff, List.any_eq_true]
    simp only [decide_eq_true_eq]
    constructor
    · intro hready
      rcases hsupplied.needed m hready with hnone | hpending | hstep
      · exact absurd hnone hm
      · cases hpending
      · exact hstep
    · rintro ⟨s, hs, rfl⟩
      exact hsupplied.equipped s hs
  cases r with
  | ec2 => rw [Build.records, Plan.needs, hmachine .ec2 nofun]
  | emr => exact hmachine .emr nofun
  | redshift => exact (stocked_build h).2

namespace Compiler

variable {c : Compiler} {d : Definition} {pl : Pipeline}

/-- The steps that prepare a machine, each with the machine: the whole list of a machine that a step
runs on, and no step for another machine. -/
def PreparedOnDemand (p : Plan) (steps : List CompiledStep) (prepared : Machine → List CompiledStep) :
    Prop :=
  (steps.filter (·.role = .bootstrap)).Perm (prepared .ec2 ++ prepared .emr) ∧
    ∀ m, if ∃ s ∈ steps, s.kind.machine = m then p.Lists m (prepared m) else prepared m = []

theorem preparedOnDemand_of_whole {p : Plan} {b : Build} {prepared : Machine → List CompiledStep}
    (hwhole : b.Whole p prepared) (hsupplied : b.Supplied []) :
    PreparedOnDemand p b.steps prepared := by
  refine ⟨hwhole.bootstrap, fun m => ?_⟩
  split
  · next hstep =>
      obtain ⟨s, hs, rfl⟩ := hstep
      exact hwhole.lists _ (hsupplied.equipped s hs)
  · next hstep =>
      by_cases hready : b.isReady m = true
      · rcases hsupplied.needed m hready with rfl | hpending | hs
        · exact hwhole.prepared_none
        · cases hpending
        · exact absurd hs hstep
      · exact hwhole.absent m (Bool.eq_false_iff.mpr hready)

/-- Preparing machines ends: three levels of it come to the same whatever would happen below them,
and so it is what one level of it makes of itself, and nothing else is.  When a definition is
compiled, each resource is one object if the steps need it and no object otherwise, and the steps
that prepare a machine are those of its whole list if a step of whatever role runs on the machine,
and none otherwise.  (Hooks may change the definition before that and the pipeline behind it.) -/
theorem resources_on_demand :
    (∀ p : Plan, Build.prepareLevel p (Build.prepare p Build.machines) =
        Build.prepare p Build.machines ∧
      ∀ f, (Build.prepareLevel p)^[3] f = Build.prepare p Build.machines) ∧
    ∀ (c : Compiler) (d : Definition) (out : Pipeline), c.compile d = .ok out →
      ∃ d' pl p, runHooks c.settings c.hooks.before d = .ok d' ∧ c.compileDefinition d' = .ok pl ∧
        runHooks c.settings c.hooks.after pl = .ok out ∧ c.plan d' = .ok p ∧
        (∀ r, pl.graph.stock r = if p.needs pl.steps r then 1 else 0) ∧
        ∃ prepared, PreparedOnDemand p pl.steps prepared := by
  refine ⟨fun p => ⟨Build.prepareLevel_prepare, Build.iterate_prepareLevel_machines⟩, ?_⟩
  intro c d out h
  simp only [compile, bind_eq_ok_iff] at h
  obtain ⟨d', hd', pl, hpl, hout⟩ := h
  obtain ⟨b, hb, hgraph, hsteps⟩ := compileDefinition_cases hpl
  obtain ⟨p, hp, start, _, hbuild⟩ := built_eq_ok_iff.mp hb
  refine ⟨d', pl, p, hd', hpl, hout, hp, ?_, ?_⟩
  · intro r
    have hstock : pl.graph.stock r = b.graph.stock r := by
      rw [hgraph]
      exact Workflow.Graph.stock_mapActivities fun a => Workflow.Activity.id_setDependencies a _
    rw [hstock, (stocked_build hbuild).1, records_build hbuild, hsteps]
    cases p.needs b.steps r <;> rfl
  · obtain ⟨_, prepared, hwhole⟩ := whole_build hbuild
    rw [hsteps]
    exact ⟨prepared, preparedOnDemand_of_whole hwhole (supplied_build hbuild)⟩

theorem resources_on_demand_crossed :
    ∃ out pl p prepared, sample.compile crossed = .ok out ∧
      sample.compileDefinition crossed = .ok pl ∧ sample.plan crossed = .ok p ∧
      pl.graph.stock .ec2 = 1 ∧ pl.graph.stock .emr = 1 ∧ pl.graph.stock .redshift = 0 ∧
      PreparedOnDemand p pl.steps prepared ∧
      (prepared .ec2).length = 2 ∧ (prepared .emr).length = 2 := by
  have hkinds : (sample.built crossed).toOption.map (fun b => b.steps.map CompiledStep.kind) =
      some [.transform, .emrStep, .transform, .emrStep, .emrStep] := by decide +kernel
  obtain ⟨out, hout, hkinds⟩ := compile_of_steps hkinds
  obtain ⟨d', pl, p, hd', hpl, hsame, hp, hstock, prepared, hprepared⟩ :=
    resources_on_demand.2 sample crossed out hout
  cases hd'
  cases hsame
  have hgroup : p.workerGroup = none := by
    rw [Plan.workerGroup, (plan_cases hp).1, (plan_cases hp).2]
    rfl
  have huses (f : Step.Kind → Bool) : out.steps.any (fun s => f s.kind) =
      [Step.Kind.transform, .emrStep, .transform, .emrStep, .emrStep].any f := by
    rw [← hkinds, List.any_map]
    rfl
  have hlength (m : Machine) (hm : out.steps.any (·.kind.machine = m) = true) :
      (prepared m).length = (p.bootstrap m).length := by
    have hlists := hprepared.2 m
    rw [if_pos (by simpa using hm)] at hlists
    rw [← hlists.length_eq, List.length_zipIdx]
  refine ⟨out, out, p, prepared, hout, hpl, hp, ?_, ?_, ?_, hprepared, ?_, ?_⟩
  · rw [hstock, Plan.needs, hgroup, huses (·.machine = .ec2)]
    rfl
  · rw [hstock, Plan.needs, huses (·.machine = .emr)]
    rfl
  · rw [hstock, Plan.needs, huses (·.usesWarehouse)]
    rfl
  · rw [hlength .ec2 (huses (·.machine = .ec2)), Plan.bootstrap, (plan_cases hp).1]
    rfl
  · rw [hlength .emr (huses (·.machine = .emr)), Plan.bootstrap, (plan_cases hp).1]
    rfl

end Compiler

end EtlFlow.Pipeline
