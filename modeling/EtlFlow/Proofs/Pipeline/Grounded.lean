import EtlFlow.Proofs.Pipeline.Run
import EtlFlow.Proofs.Step.Contract
import EtlFlow.Proofs.Workflow.Grounded
/-!
# Pipelines in the order of their references

The graph of a build is grounded, and everything that later steps may refer to is in it
(`Grounded`): every change of the build keeps that (`Grounded.change`), and so does every run
(`Grounded.run`).
-/

namespace EtlFlow.Pipeline

open Outcome
open Relation (ReflTransGen)
open Sequence (Founded)
open Step (Machine Nodes NodeRef)
open Workflow (Object ObjectId Activity)

namespace Build

variable {p : Plan} {b b' b₁ : Build} {m : Machine} {s : PlannedStep} {type : Step.StepType}

/-- The objects refer to earlier ones, and what later steps may refer to is among them. -/
structure Grounded (p : Plan) (b : Build) : Prop where
  graph : b.graph.Grounded
  schedule : Workflow.Schedule.id ∈ b.graph.ids
  alarm : p.topic.isSome = true → Workflow.Alarm.id ∈ b.graph.ids
  runner : ∀ m r id, b.runner? m = some r → r.resource? = some id → id ∈ b.graph.ids
  warehouse : ∀ id, b.warehouse = some id → id ∈ b.graph.ids
  nodes : ∀ n ∈ b.nodes, n.2.id ∈ b.graph.ids
  lastOutput : b.lastOutput.ids ⊆ b.graph.ids
  steps : ∀ s ∈ b.steps, s.activities ⊆ b.graph.activities.map Activity.id
  preparation : ∀ m, b.preparation m ⊆ b.graph.activities.map Activity.id

/-! ### Adding a machine, the warehouse or a node -/

theorem Grounded.sameSteps (hb : Grounded p b) (hsame : SameSteps b b') (hgraph : b'.graph.Grounded)
    (hids : b.graph.ids ⊆ b'.graph.ids)
    (hrunner : ∀ m r id, b'.runner? m = some r → r.resource? = some id → id ∈ b'.graph.ids)
    (hwarehouse : ∀ id, b'.warehouse = some id → id ∈ b'.graph.ids) : Grounded p b' where
  graph := hgraph
  schedule := hids hb.schedule
  alarm h := hids (hb.alarm h)
  runner := hrunner
  warehouse := hwarehouse
  nodes := by
    rw [hsame.nodes]
    exact fun n hn => hids (hb.nodes n hn)
  lastOutput := by
    rw [hsame.lastOutput]
    exact List.Subset.trans hb.lastOutput hids
  steps := by
    rw [hsame.steps, hsame.activities]
    exact hb.steps
  preparation := by
    rw [hsame.preparation, hsame.activities]
    exact hb.preparation

theorem ids_of_add {g g' : Workflow.Graph} {o : Object} (h : g.add o = .ok g') :
    g'.ids = g.ids ++ [o.id] :=
  Workflow.Graph.ids_of_addAll (Workflow.Graph.objects_of_add h)

theorem subset_ids_of_add {g g' : Workflow.Graph} {o : Object} (h : g.add o = .ok g') :
    g.ids ⊆ g'.ids := by
  rw [ids_of_add h]
  exact List.subset_append_left _ _

theorem mem_ids_of_add {g g' : Workflow.Graph} {o : Object} (h : g.add o = .ok g') :
    o.id ∈ g'.ids := by
  rw [ids_of_add h]
  exact List.mem_append_right _ List.mem_cons_self

theorem schedule_of_machineRoles {r : Workflow.MachineRoles} (h : p.machineRoles = .ok r) :
    r.schedule = Workflow.Schedule.id := by
  simp only [Plan.machineRoles, bind_eq_ok_iff, pure_eq_ok_iff] at h
  obtain ⟨_, _, _, _, rfl⟩ := h
  rfl

theorem schedule_of_ec2 {r : Workflow.Ec2Resource} (h : p.ec2 = .ok r) :
    r.schedule = Workflow.Schedule.id := by
  simp only [Plan.ec2, bind_eq_ok_iff, pure_eq_ok_iff] at h
  obtain ⟨_, _, roles, hroles, rfl⟩ := h
  exact schedule_of_machineRoles hroles

theorem schedule_of_emr {r : Workflow.EmrCluster} (h : p.emr = .ok r) :
    r.schedule = Workflow.Schedule.id := by
  simp only [Plan.emr, bind_eq_ok_iff, pure_eq_ok_iff] at h
  obtain ⟨_, _, roles, hroles, rfl⟩ := h
  exact schedule_of_machineRoles hroles

theorem Grounded.addMachine (hb : Grounded p b) (h : b.addMachine p m = .ok b') :
    Grounded p b' := by
  have hsame := sameSteps_addMachine h
  rcases addMachine_cases h with
    ⟨rfl, group, _, rfl⟩ | ⟨rfl, _, r, g, hr, hg, rfl⟩ | ⟨rfl, r, g, hr, hg, rfl⟩ | ⟨_, rfl⟩
  · refine hb.sameSteps hsame hb.graph (List.Subset.refl _) ?_ hb.warehouse
    rintro (_ | _ | _) r id hr hid
    · cases hr
      cases hid
    · exact hb.runner .emr r id hr hid
    · cases hr
  · have hsub := subset_ids_of_add hg
    refine hb.sameSteps hsame (hb.graph.add hg rfl ?_) hsub ?_ fun id hid => hsub (hb.warehouse id hid)
    · rw [Object.targets_ec2, schedule_of_ec2 hr]
      exact Sequence.singleton_subset hb.schedule
    · rintro (_ | _ | _) r' id hr' hid
      · cases hr'
        cases hid
        exact mem_ids_of_add hg
      · exact hsub (hb.runner .emr r' id hr' hid)
      · cases hr'
  · have hsub := subset_ids_of_add hg
    refine hb.sameSteps hsame (hb.graph.add hg rfl ?_) hsub ?_ fun id hid => hsub (hb.warehouse id hid)
    · rw [Object.targets_emr, schedule_of_emr hr]
      exact Sequence.singleton_subset hb.schedule
    · rintro (_ | _ | _) r' id hr' hid
      · exact hsub (hb.runner .ec2 r' id hr' hid)
      · cases hr'
        cases hid
        exact mem_ids_of_add hg
      · cases hr'
  · exact hb

theorem Grounded.provideWarehouse (hb : Grounded p b) {kind : Step.Kind}
    (h : b.provideWarehouse p kind = .ok b') :
    Grounded p b' := by
  have hsame := sameSteps_provideWarehouse h
  rcases provideWarehouse_cases h with ⟨_, rfl⟩ | ⟨_, _, d, g, hg, rfl⟩
  · exact hb
  · have hsub := subset_ids_of_add hg
    refine hb.sameSteps hsame (hb.graph.add hg rfl ?_) hsub ?_ ?_
    · rw [Object.targets_redshift]
      exact List.nil_subset _
    · exact fun m r id hr hid => hsub (hb.runner m r id hr hid)
    · intro id hid
      cases hid
      exact mem_ids_of_add hg

/-- The nodes that a step reads are objects. -/
theorem Grounded.resolveInput (hb : Grounded p b) {input : Nodes}
    (h : b.resolveInput s = .ok (input, b')) :
    Grounded p b' ∧ input.ids ⊆ b'.graph.ids := by
  have hsame := sameSteps_resolveInput h
  rcases resolveInput_cases h with ⟨rfl, hinput⟩ | ⟨n, g, hn, hg, rfl, rfl, _⟩
  · refine ⟨hb, ?_⟩
    intro x hx
    obtain ⟨n, hn, rfl⟩ := List.mem_map.mp hx
    rcases hinput n hn with ⟨name, hname⟩ | hlast
    · exact hb.nodes _ hname
    · exact hb.lastOutput (List.mem_map_of_mem hlast)
  · have hsub := subset_ids_of_add hg
    constructor
    · refine hb.sameSteps hsame (hb.graph.add hg rfl ?_) hsub ?_ fun id hid => hsub (hb.warehouse id hid)
      · rw [Object.targets_store, hn]
        exact Sequence.singleton_subset hb.schedule
      · exact fun m r id hr hid => hsub (hb.runner m r id hr hid)
    · exact Sequence.singleton_subset (mem_ids_of_add hg)

/-! ### Placing a step -/

theorem Grounded.supplied (hb : Grounded p b) {input : Nodes} (hinput : input.ids ⊆ b.graph.ids) :
    (b.context p s m input).supplied ⊆ b.graph.ids := by
  intro x hx
  simp only [Step.Context.supplied, context, List.mem_cons, List.mem_append, Option.mem_toList] at hx
  rcases hx with rfl | ((hx | hx) | hx) | hx
  · exact hb.schedule
  · obtain ⟨r, hr, hid⟩ := Option.bind_eq_some_iff.mp hx
    exact hb.runner m r x hr hid
  · obtain ⟨topic, htopic, rfl⟩ := Option.map_eq_some_iff.mp hx
    exact hb.alarm (Option.isSome_of_eq_some htopic)
  · exact hb.warehouse x hx
  · exact hinput hx

theorem Grounded.waitsFor (hb : Grounded p b) {role : Role} {dependsOn : List String} :
    b.waitsFor role m dependsOn ⊆ b.graph.activities.map Activity.id := by
  intro x hx
  rcases List.mem_append.mp hx with hx | hx
  · obtain ⟨id, _, hx⟩ := List.mem_flatMap.mp hx
    unfold activitiesOf step? at hx
    cases hfind : b.steps.reverse.find? (·.id == id) with
    | none =>
        rw [hfind] at hx
        cases hx
    | some c =>
        rw [hfind] at hx
        exact hb.steps c (List.mem_reverse.mp (List.mem_of_find?_eq_some hfind)) hx
  · split at hx
    · exact hb.preparation m hx
    · cases hx

theorem work_placed (b : Build) (s : PlannedStep) (kind : Step.Kind) (dependsOn : List String)
    (e : Step.Expansion) :
    (b.placed s kind dependsOn e).filterMap Object.activity? =
      e.work.map (·.addDependencies (b.waitsFor s.role kind.machine dependsOn)) := by
  unfold placed Step.Expansion.work
  rw [List.filterMap_map, List.map_filterMap]
  congr 1
  funext o
  exact Object.activity?_mapActivity _ o

theorem ids_placed (b : Build) (s : PlannedStep) (kind : Step.Kind) (dependsOn : List String)
    (e : Step.Expansion) :
    (b.placed s kind dependsOn e).map Object.id = e.objects.map Object.id := by
  unfold placed
  rw [List.map_map]
  congr 1
  funext o
  exact Object.id_mapActivity (fun a => Activity.id_addDependencies a _) o

/-- The ids of the activities of a step are those of the activities that are placed. -/
theorem activities_placed (b : Build) (s : PlannedStep) (kind : Step.Kind) (dependsOn : List String)
    {c : Step.Context} {e : Step.Expansion} (he : e.Sound c) :
    ((b.placed s kind dependsOn e).filterMap Object.activity?).map Activity.id = e.activities := by
  rw [work_placed, List.map_map, he.activities]
  apply List.map_congr_left
  intro a _
  exact Activity.id_addDependencies a _

section

variable {kind : Step.Kind} {input : Nodes} {dependsOn : List String} {e : Step.Expansion}

/-- The graph with a step's objects, which wait only for activities that are there. -/
theorem Grounded.graph_of_addAll (hb : Grounded p b) (hinput : input.ids ⊆ b.graph.ids)
    (he : e.Sound (b.context p s kind.machine input)) {g : Workflow.Graph}
    (h : g.objects = b.graph.objects ++ b.placed s kind dependsOn e) : g.Grounded := by
  have hwaits : b.waitsFor s.role kind.machine dependsOn ⊆ b.graph.activities.map Activity.id :=
    hb.waitsFor
  apply hb.graph.addAll h
  · refine (he.objects.mono (hb.supplied hinput)).map
      (Object.id_mapActivity fun a => Activity.id_addDependencies a _) ?_
      (List.Subset.trans hwaits Workflow.Graph.activityIds_subset)
    intro o _
    apply Object.targets_mapActivity_subset
    · exact fun a _ => Activity.independent_addDependencies a _
    · exact fun a _ => Activity.dependsOn_addDependencies_subset a _
  · rw [work_placed]
    exact (he.work.mono (List.nil_subset _)).map (fun a => Activity.id_addDependencies a _)
      (fun a _ => Activity.dependsOn_addDependencies_subset a _) hwaits

theorem Grounded.addedStep (hb : Grounded p b) (hinput : input.ids ⊆ b.graph.ids)
    (he : e.Sound (b.context p s kind.machine input))
    (h : AddedStep b b' (compiled s kind input dependsOn e) (b.placed s kind dependsOn e)) :
    Grounded p b' := by
  have hwork := Workflow.Graph.activities_of_addAll h.objects
  have hids := Workflow.Graph.ids_of_addAll h.objects
  rw [ids_placed] at hids
  have hsub : b.graph.ids ⊆ b'.graph.ids := by
    rw [hids]
    exact List.subset_append_left _ _
  have hsubWork : b.graph.activities.map Activity.id ⊆ b'.graph.activities.map Activity.id := by
    rw [hwork, List.map_append]
    exact List.subset_append_left _ _
  refine ⟨hb.graph_of_addAll hinput he h.objects, hsub hb.schedule, fun ht => hsub (hb.alarm ht), ?_,
    ?_, ?_, ?_, ?_, ?_⟩
  · rw [h.runner]
    exact fun m r id hr hid => hsub (hb.runner m r id hr hid)
  · rw [h.warehouse]
    exact fun id hid => hsub (hb.warehouse id hid)
  · intro n hn
    rcases h.nodes n hn with hn | hn
    · exact hsub (hb.nodes n hn)
    · rw [hids]
      exact List.mem_append_right _ (he.output (List.mem_map_of_mem hn))
  · rcases h.lastOutput with hlast | hlast
    · rw [hlast]
      exact List.Subset.trans hb.lastOutput hsub
    · rw [hlast, hids]
      exact List.Subset.trans he.output (List.subset_append_right _ _)
  · rw [h.steps]
    intro c hc
    rcases List.mem_append.mp hc with hc | hc
    · exact List.Subset.trans (hb.steps c hc) hsubWork
    · rw [List.mem_singleton.mp hc, hwork, List.map_append, activities_placed b s kind dependsOn he]
      exact List.subset_append_right _ _
  · rw [h.preparation]
    exact fun m => List.Subset.trans (hb.preparation m) hsubWork

end

theorem Grounded.place (hb : Grounded p b) (h : place p s type b = .ok b') : Grounded p b' := by
  obtain ⟨b₁, h₁, input, b₂, h₂, dependsOn, _, e, he, h⟩ := place_eq_ok_iff.mp h
  obtain ⟨hb₂, hinput⟩ := (hb.provideWarehouse h₁).resolveInput h₂
  exact hb₂.addedStep hinput (Step.expand_sound he) (addedStep_of_addStep h)

theorem Grounded.addPreparation (hb : Grounded p b) {ids : List ObjectId}
    (hids : ids ⊆ b.graph.activities.map Activity.id) : Grounded p (b.addPreparation ids m) := by
  have hpreparation (m' : Machine) :
      (b.addPreparation ids m).preparation m' ⊆ b.graph.activities.map Activity.id := by
    rw [preparation_addPreparation]
    split
    · exact List.append_subset.mpr ⟨hb.preparation m, hids⟩
    · exact hb.preparation m'
  cases m with
  | ec2 =>
      exact ⟨hb.graph, hb.schedule, hb.alarm, hb.runner, hb.warehouse, hb.nodes, hb.lastOutput,
        hb.steps, hpreparation⟩
  | emr =>
      exact ⟨hb.graph, hb.schedule, hb.alarm, hb.runner, hb.warehouse, hb.nodes, hb.lastOutput,
        hb.steps, hpreparation⟩
  | none => exact hb

/-! ### Runs -/

/-- Every change keeps a build grounded. -/
theorem Grounded.change (hb : Grounded p b) (h : Change p b b') : Grounded p b' := by
  cases h with
  | machine _ h => exact hb.addMachine h
  | place _ _ _ h => exact hb.place h
  | prepare hsteps _ _ =>
      apply hb.addPreparation
      apply hb.steps
      rw [hsteps]
      exact List.mem_append_right _ List.mem_cons_self

theorem Grounded.run (hb : Grounded p b) (h : ReflTransGen (Change p) b b') : Grounded p b' := by
  induction h with
  | refl => exact hb
  | tail _ hchange ih => exact ih.change hchange

end Build

end EtlFlow.Pipeline
