import EtlFlow.Pipeline.Compiler
import EtlFlow.Proofs.Workflow.References
import Mathlib.Logic.Relation
/-!
# Building as a run

Building a pipeline is a run of three changes: a machine is added, a step is placed, and the
activities of a placed step come to prepare a machine (`Change`).  Every successful build is such a
run from the objects that every pipeline has, with the step behind all others placed at its end
(`build_run`).
-/

namespace EtlFlow.Pipeline

open Outcome
open Relation (ReflTransGen)
open Step (Machine Nodes NodeRef Descriptor)
open Workflow (Object ObjectId)

namespace Build

variable {p : Plan} {b b' b₁ b₂ : Build} {m : Machine} {s : PlannedStep} {type : Step.StepType}

/-! ### Adding objects -/

theorem addObject_eq_ok_iff {o : Object} :
    b.addObject o = .ok b' ↔ ∃ g, b.graph.add o = .ok g ∧ { b with graph := g } = b' := by
  simp only [addObject, bind_eq_ok_iff, mapError_eq_ok_iff, pure_eq_ok_iff]

/-- What stays as it is when a machine, the warehouse or a node is added. -/
structure SameSteps (b b' : Build) : Prop where
  steps : b'.steps = b.steps
  preparation : b'.preparation = b.preparation
  nodes : b'.nodes = b.nodes
  producers : b'.producers = b.producers
  lastOutput : b'.lastOutput = b.lastOutput
  activities : b'.graph.activities = b.graph.activities
  ready : ∀ m, b.isReady m = true → b'.isReady m = true

theorem SameSteps.refl (b : Build) : SameSteps b b := ⟨rfl, rfl, rfl, rfl, rfl, rfl, fun _ => id⟩

theorem SameSteps.trans (h : SameSteps b b₁) (h' : SameSteps b₁ b₂) : SameSteps b b₂ where
  steps := h'.steps.trans h.steps
  preparation := h'.preparation.trans h.preparation
  nodes := h'.nodes.trans h.nodes
  producers := h'.producers.trans h.producers
  lastOutput := h'.lastOutput.trans h.lastOutput
  activities := h'.activities.trans h.activities
  ready m hm := h'.ready m (h.ready m hm)

/-- An object that is no activity changes nothing about the activities. -/
theorem activities_of_add {g g' : Workflow.Graph} {o : Object} (h : g.add o = .ok g')
    (ho : o.activity? = none) :
    g'.activities = g.activities := by
  unfold Workflow.Graph.activities
  rw [Workflow.Graph.objects_of_add h, List.filterMap_append, List.filterMap_cons_none ho]
  exact List.append_nil _

theorem addMachine_cases (h : b.addMachine p m = .ok b') :
    (m = .ec2 ∧ ∃ group, p.workerGroup = some group ∧
        b' = { b with ec2 := some (.workerGroup group) }) ∨
      (m = .ec2 ∧ p.workerGroup = none ∧ ∃ r g, p.ec2 = .ok r ∧ b.graph.add (.ec2 r) = .ok g ∧
        b' = { b with graph := g, ec2 := some (.resource Workflow.Ec2Resource.id) }) ∨
      (m = .emr ∧ ∃ r g, p.emr = .ok r ∧ b.graph.add (.emr r) = .ok g ∧
        b' = { b with graph := g, emr := some r.cluster.imageSeries }) ∨
      (m = .none ∧ b' = b) := by
  cases m with
  | ec2 =>
      simp only [addMachine] at h
      split at h
      · next group hgroup =>
          cases h
          exact .inl ⟨rfl, group, hgroup, rfl⟩
      · next hgroup =>
          simp only [bind_eq_ok_iff, mapError_eq_ok_iff, addObject_eq_ok_iff, pure_eq_ok_iff] at h
          obtain ⟨r, hr, _, ⟨g, hg, rfl⟩, rfl⟩ := h
          exact .inr (.inl ⟨rfl, hgroup, r, g, hr, hg, rfl⟩)
  | emr =>
      simp only [addMachine, bind_eq_ok_iff, mapError_eq_ok_iff, addObject_eq_ok_iff, pure_eq_ok_iff] at h
      obtain ⟨r, hr, _, ⟨g, hg, rfl⟩, rfl⟩ := h
      exact .inr (.inr (.inl ⟨rfl, r, g, hr, hg, rfl⟩))
  | none =>
      cases h
      exact .inr (.inr (.inr ⟨rfl, rfl⟩))

theorem provideWarehouse_cases {kind : Step.Kind} (h : b.provideWarehouse p kind = .ok b') :
    ((kind.usesWarehouse = true → b.warehouse.isSome = true) ∧ b' = b) ∨
      (kind.usesWarehouse = true ∧ b.warehouse = none ∧ ∃ d g, b.graph.add (.redshift d) = .ok g ∧
        b' = { b with graph := g, warehouse := some Workflow.RedshiftDatabase.id }) := by
  unfold provideWarehouse requireWarehouse at h
  split at h
  · next huses =>
      split at h
      · next hthere =>
          cases h
          exact .inl ⟨fun _ => hthere, rfl⟩
      · next hthere =>
          simp only [bind_eq_ok_iff, mapError_eq_ok_iff, addObject_eq_ok_iff, pure_eq_ok_iff] at h
          obtain ⟨d, _, _, ⟨g, hg, rfl⟩, rfl⟩ := h
          exact .inr ⟨huses, Option.not_isSome_iff_eq_none.mp hthere, d, g, hg, rfl⟩
  · next huses =>
      cases h
      exact .inl ⟨fun h => absurd h huses, rfl⟩

theorem mem_nodes_of_node {step name : String} {n : NodeRef} (h : b.node step name = .ok n) :
    (name, n) ∈ b.nodes := by
  unfold node at h
  split at h
  · next hlookup =>
      cases h
      obtain ⟨_, _, hsplit, _⟩ := List.lookup_eq_some_iff.mp hlookup
      rw [hsplit]
      exact List.mem_append_right _ List.mem_cons_self
  · cases h

theorem mem_refs_of_singleStore? {nodes : Nodes} {n : NodeRef} (h : nodes.singleStore? = some n) :
    nodes.refs = [n] := by
  cases nodes with
  | single n' =>
      simp only [Nodes.singleStore?] at h
      split at h
      · cases h
        rfl
      · cases h
  | _ => cases h

/-- The nodes that a step reads are there already, or the path that it gives by a URI becomes a
node. -/
theorem resolveInput_cases {input : Nodes} (h : b.resolveInput s = .ok (input, b')) :
    (b' = b ∧ ∀ n ∈ input.refs, (∃ name, (name, n) ∈ b.nodes) ∨ n ∈ b.lastOutput.refs) ∨
      ∃ n g, n.schedule = Workflow.Schedule.id ∧ b.graph.add (.store n) = .ok g ∧
        b' = { b with graph := g } ∧ input = .single (.ofStore n) ∧
        n.id = s.id ++ "InputPath" ∧ ∃ uri, Storage.Location.ofUri uri = .ok n.path := by
  unfold resolveInput at h
  split at h
  · cases h
  · simp only [bind_eq_ok_iff, pure_eq_ok_iff, Prod.mk.injEq] at h
    obtain ⟨n, hn, rfl, rfl⟩ := h
    refine .inl ⟨rfl, ?_⟩
    intro n' hn'
    rw [List.mem_singleton.mp hn']
    exact .inl ⟨_, mem_nodes_of_node hn⟩
  · simp only [bind_eq_ok_iff, pure_eq_ok_iff, Prod.mk.injEq] at h
    obtain ⟨named, hnamed, rfl, rfl⟩ := h
    refine .inl ⟨rfl, ?_⟩
    intro n hn
    obtain ⟨entry, hentry, rfl⟩ := List.mem_map.mp hn
    obtain ⟨⟨name, shown⟩, _, hread⟩ := exists_of_mem_mapM hnamed (Sorted.mem_ofEntries hentry)
    simp only [bind_eq_ok_iff, pure_eq_ok_iff] at hread
    obtain ⟨n', hn', rfl⟩ := hread
    exact .inl ⟨name, mem_nodes_of_node hn'⟩
  · simp only [bind_eq_ok_iff, addObject_eq_ok_iff, pure_eq_ok_iff, Prod.mk.injEq] at h
    obtain ⟨path, hpath, _, ⟨g, hg, rfl⟩, rfl, rfl⟩ := h
    exact .inr ⟨_, g, rfl, hg, rfl, rfl, rfl, _, mapError_eq_ok_iff.mp hpath⟩
  · refine .inl ?_
    split at h
    · next hlast =>
        cases h
        refine ⟨rfl, fun n hn => .inr ?_⟩
        rw [mem_refs_of_singleStore? hlast]
        exact hn
    · cases h
      exact ⟨rfl, fun n hn => absurd hn List.not_mem_nil⟩

/-! ### Nothing but an object is added -/

theorem sameSteps_addMachine (h : b.addMachine p m = .ok b') : SameSteps b b' := by
  rcases addMachine_cases h with
    ⟨_, _, _, rfl⟩ | ⟨_, _, _, g, _, hg, rfl⟩ | ⟨_, _, g, _, hg, rfl⟩ | ⟨_, rfl⟩
  · refine ⟨rfl, rfl, rfl, rfl, rfl, rfl, ?_⟩
    rintro (_ | _ | _) hm
    · rfl
    · exact hm
    · rfl
  · refine ⟨rfl, rfl, rfl, rfl, rfl, activities_of_add hg rfl, ?_⟩
    rintro (_ | _ | _) hm
    · rfl
    · exact hm
    · rfl
  · refine ⟨rfl, rfl, rfl, rfl, rfl, activities_of_add hg rfl, ?_⟩
    rintro (_ | _ | _) hm
    · exact hm
    · rfl
    · rfl
  · exact SameSteps.refl _

theorem sameSteps_provideWarehouse {kind : Step.Kind} (h : b.provideWarehouse p kind = .ok b') :
    SameSteps b b' := by
  rcases provideWarehouse_cases h with ⟨_, rfl⟩ | ⟨_, _, _, g, hg, rfl⟩
  · exact SameSteps.refl _
  · exact ⟨rfl, rfl, rfl, rfl, rfl, activities_of_add hg rfl, fun _ hm => hm⟩

theorem sameSteps_resolveInput {input : Nodes} (h : b.resolveInput s = .ok (input, b')) :
    SameSteps b b' := by
  rcases resolveInput_cases h with ⟨rfl, _⟩ | ⟨_, g, _, hg, rfl, _⟩
  · exact SameSteps.refl _
  · exact ⟨rfl, rfl, rfl, rfl, rfl, activities_of_add hg rfl, fun _ hm => hm⟩

theorem isReady_addMachine (h : b.addMachine p m = .ok b') : b'.isReady m = true := by
  rcases addMachine_cases h with
    ⟨rfl, _, _, rfl⟩ | ⟨rfl, _, _, _, _, _, rfl⟩ | ⟨rfl, _, _, _, _, rfl⟩ | ⟨rfl, rfl⟩ <;> rfl

/-! ### Placing a step -/

/-- What placing a step adds to a build. -/
structure AddedStep (b b' : Build) (s : CompiledStep) (objects : List Object) : Prop where
  objects : b'.graph.objects = b.graph.objects ++ objects
  steps : b'.steps = b.steps ++ [s]
  runner : b'.runner? = b.runner?
  warehouse : b'.warehouse = b.warehouse
  preparation : b'.preparation = b.preparation
  nodes : ∀ n ∈ b'.nodes, n ∈ b.nodes ∨ n.2 ∈ s.output.refs
  producers : ∀ q ∈ b'.producers, q ∈ b.producers ∨ q.2 = s.id
  lastOutput : b'.lastOutput = b.lastOutput ∨ b'.lastOutput = s.output

theorem addOutput_spec (b : Build) (id : String) (output : Nodes) :
    ∃ nodes producers, b.addOutput id output = { b with nodes, producers } ∧
      (∀ n ∈ nodes, n ∈ b.nodes ∨ n.2 ∈ output.refs) ∧ ∀ q ∈ producers, q ∈ b.producers ∨ q.2 = id := by
  cases output with
  | none => exact ⟨_, _, rfl, fun _ => .inl, fun _ => .inl⟩
  | single n =>
      refine ⟨_, _, rfl, ?_, ?_⟩
      · intro n' hn'
        rcases List.mem_cons.mp hn' with rfl | hn'
        · exact .inr List.mem_cons_self
        · exact .inl hn'
      · intro q hq
        rcases List.mem_cons.mp hq with rfl | hq
        · exact .inr rfl
        · exact .inl hq
  | named ns =>
      refine ⟨_, _, rfl, ?_, ?_⟩
      · intro n hn
        rcases List.mem_append.mp hn with hn | hn
        · exact .inr (List.mem_map_of_mem hn)
        · exact .inl hn
      · intro q hq
        rcases List.mem_append.mp hq with hq | hq
        · obtain ⟨_, _, rfl⟩ := List.mem_map.mp hq
          exact .inr rfl
        · exact .inl hq

theorem addedStep_of_addStep {s : CompiledStep} {objects : List Object}
    {artifacts : List Step.Artifact}
    (h : b.addStep s objects artifacts = .ok b') : AddedStep b b' s objects := by
  simp only [addStep, bind_eq_ok_iff, mapError_eq_ok_iff, pure_eq_ok_iff] at h
  obtain ⟨g, hg, rfl⟩ := h
  have hobjects := Workflow.Graph.objects_of_addAll hg
  obtain ⟨nodes, producers, heq, hnodes, hproducers⟩ := addOutput_spec
    { b with graph := g, steps := b.steps ++ [s], artifacts := b.artifacts ++ artifacts } s.id s.output
  rw [heq]
  split
  · exact ⟨hobjects, rfl, rfl, rfl, rfl, hnodes, hproducers, .inr rfl⟩
  · exact ⟨hobjects, rfl, rfl, rfl, rfl, hnodes, hproducers, .inl rfl⟩

/-- A step as it is compiled. -/
def compiled (s : PlannedStep) (kind : Step.Kind) (input : Nodes) (dependsOn : List String)
    (e : Step.Expansion) :
    CompiledStep :=
  { id := s.id, kind, role := s.role, activities := e.activities, dependsOn, input, output := e.output }

/-- The objects of a step, its activities waiting for the ones before. -/
def placed (b : Build) (s : PlannedStep) (kind : Step.Kind) (dependsOn : List String)
    (e : Step.Expansion) :
    List Object :=
  e.objects.map (·.mapActivity (·.addDependencies (b.waitsFor s.role kind.machine dependsOn)))

theorem place_eq_ok_iff :
    place p s type b = .ok b' ↔ ∃ b₁, b.provideWarehouse p type.kind = .ok b₁ ∧
      ∃ input b₂, b₁.resolveInput s = .ok (input, b₂) ∧
        ∃ dependsOn, b₂.predecessors s input = .ok dependsOn ∧ ∃ e, Step.expand type.kind (Descriptor.withDefaults s.descriptor.arguments type.defaults)
            (b₂.context p s type.kind.machine input) = .ok e ∧
          b₂.addStep (compiled s type.kind input dependsOn e) (b₂.placed s type.kind dependsOn e)
            e.artifacts = .ok b' := by
  simp only [place, bind_eq_ok_iff, mapError_eq_ok_iff, Prod.exists]
  rfl

/-- Placing a step first changes nothing about the steps, and then adds the step. -/
theorem place_cases (h : place p s type b = .ok b') :
    ∃ b₁ input dependsOn e, SameSteps b b₁ ∧ b₁.predecessors s input = .ok dependsOn ∧
      Step.expand type.kind (Descriptor.withDefaults s.descriptor.arguments type.defaults)
        (b₁.context p s type.kind.machine input) = .ok e ∧
      AddedStep b₁ b' (compiled s type.kind input dependsOn e) (b₁.placed s type.kind dependsOn e) := by
  obtain ⟨b₁, h₁, input, b₂, h₂, dependsOn, hd, e, he, h⟩ := place_eq_ok_iff.mp h
  have hsame : SameSteps b b₂ := (sameSteps_provideWarehouse h₁).trans (sameSteps_resolveInput h₂)
  exact ⟨b₂, input, dependsOn, e, hsame, hd, he, addedStep_of_addStep h⟩

theorem isReady_eq_runner? (b : Build) (m : Machine) :
    b.isReady m = (m = .none ∨ (b.runner? m).isSome) := by
  cases m <;> simp [isReady, runner?]

theorem AddedStep.isReady {c : CompiledStep} {objects : List Object} (h : AddedStep b b' c objects)
    (m : Machine) : b'.isReady m = b.isReady m := by
  rw [Bool.eq_iff_iff, isReady_eq_runner?, isReady_eq_runner?, h.runner]

theorem steps_of_place (h : place p s type b = .ok b') :
    ∃ c : CompiledStep,
      b'.steps = b.steps ++ [c] ∧ c.id = s.id ∧ c.role = s.role ∧ c.kind = type.kind := by
  obtain ⟨b₁, input, dependsOn, e, hsame, _, _, hadded⟩ := place_cases h
  refine ⟨compiled s type.kind input dependsOn e, ?_, rfl, rfl, rfl⟩
  rw [hadded.steps, hsame.steps]

/-- Placing a step adds no machine. -/
theorem isReady_place (h : place p s type b = .ok b') (m : Machine) :
    b'.isReady m = b.isReady m := by
  obtain ⟨b₁, h₁, input, b₂, h₂, dependsOn, _, e, _, h⟩ := place_eq_ok_iff.mp h
  have hwarehouse : b₁.isReady m = b.isReady m := by
    rcases provideWarehouse_cases h₁ with ⟨_, rfl⟩ | ⟨_, _, _, _, _, rfl⟩
    · rfl
    · cases m <;> rfl
  have hinput : b₂.isReady m = b₁.isReady m := by
    rcases resolveInput_cases h₂ with ⟨rfl, _⟩ | ⟨_, _, _, _, rfl, _⟩
    · rfl
    · cases m <;> rfl
  rw [(addedStep_of_addStep h).isReady, hinput, hwarehouse]

/-! ### Further activities that prepare a machine -/

theorem steps_addPreparation (b : Build) (ids : List ObjectId) (m : Machine) :
    (b.addPreparation ids m).steps = b.steps := by
  cases m <;> rfl

theorem graph_addPreparation (b : Build) (ids : List ObjectId) (m : Machine) :
    (b.addPreparation ids m).graph = b.graph := by
  cases m <;> rfl

theorem producers_addPreparation (b : Build) (ids : List ObjectId) (m : Machine) :
    (b.addPreparation ids m).producers = b.producers := by
  cases m <;> rfl

theorem preparation_addPreparation (b : Build) (ids : List ObjectId) (m m' : Machine) :
    (b.addPreparation ids m).preparation m' =
      if m' = m ∧ m ≠ .none then b.preparation m ++ ids else b.preparation m' := by
  cases m <;> cases m' <;> rfl

/-! ### Changes -/

/-- One change of a build.  A step of the definition has its machine, and a step prepares a machine
that no step of the definition has used yet. -/
inductive Change (p : Plan) : Build → Build → Prop
  | machine {b b' : Build} {m : Machine} (hready : b.isReady m = false)
      (h : b.addMachine p m = .ok b') : Change p b b'
  | place {b b' : Build} {s : PlannedStep} {type : Step.StepType} (hrole : s.role ≠ .teardown)
      (hafter : s.after ⊆ b.steps.map CompiledStep.id)
      (hready : s.role = .step → b.isReady type.kind.machine = true)
      (h : place p s type b = .ok b') : Change p b b'
  | prepare {b : Build} {m : Machine} {before : List CompiledStep} {s : CompiledStep}
      (hsteps : b.steps = before ++ [s]) (hrole : s.role = .bootstrap) (hunused : ∀ t ∈ b.steps, t.role = .step → t.kind.machine ≠ m) :
      Change p b (b.addPreparation s.activities m)

/-- The steps of the definition have their machines. -/
def Settled (b : Build) : Prop := ∀ s ∈ b.steps, s.role = .step → b.isReady s.kind.machine = true

/-- A run that adds steps that prepare machines only. -/
structure Prepares (p : Plan) (b b' : Build) : Prop where
  run : ReflTransGen (Change p) b b'
  steps : ∃ new, b'.steps = b.steps ++ new ∧ ∀ s ∈ new, s.role = .bootstrap
  ready : ∀ m, b.isReady m = true → b'.isReady m = true

theorem Prepares.refl (b : Build) : Prepares p b b :=
  ⟨.refl, ⟨[], (List.append_nil _).symm, fun _ hs => absurd hs List.not_mem_nil⟩, fun _ => id⟩

theorem Prepares.trans (h : Prepares p b b₁) (h' : Prepares p b₁ b₂) : Prepares p b b₂ := by
  obtain ⟨new, hnew, hrole⟩ := h.steps
  obtain ⟨new', hnew', hrole'⟩ := h'.steps
  refine ⟨h.run.trans h'.run, ⟨new ++ new', ?_, ?_⟩, fun m hm => h'.ready m (h.ready m hm)⟩
  · rw [hnew', hnew, List.append_assoc]
  · intro s hs
    rcases List.mem_append.mp hs with hs | hs
    · exact hrole s hs
    · exact hrole' s hs

/-- The steps of the definition are those of before. -/
theorem Prepares.mem_steps (h : Prepares p b b') {s : CompiledStep} (hs : s ∈ b'.steps)
    (hrole : s.role = .step) :
    s ∈ b.steps := by
  obtain ⟨new, hnew, hbootstrap⟩ := h.steps
  rw [hnew, List.mem_append] at hs
  rcases hs with hs | hs
  · exact hs
  · have hrole' := hbootstrap s hs
    rw [hrole] at hrole'
    cases hrole'

theorem Prepares.settled (h : Prepares p b b') (hb : Settled b) : Settled b' :=
  fun s hs hrole => h.ready _ (hb s (h.mem_steps hs hrole) hrole)

theorem Prepares.subset_ids (h : Prepares p b b') :
    b.steps.map CompiledStep.id ⊆ b'.steps.map CompiledStep.id := by
  obtain ⟨new, hnew, _⟩ := h.steps
  rw [hnew, List.map_append]
  exact List.subset_append_left _ _

theorem prepares_addMachine (hready : b.isReady m = false) (h : b.addMachine p m = .ok b') :
    Prepares p b b' where
  run := .single (.machine hready h)
  steps := ⟨[], by rw [(sameSteps_addMachine h).steps, List.append_nil],
    fun _ hs => absurd hs List.not_mem_nil⟩
  ready := (sameSteps_addMachine h).ready

theorem prepares_place (hrole : s.role = .bootstrap)
    (hafter : s.after ⊆ b.steps.map CompiledStep.id)
    (h : place p s type b = .ok b') : Prepares p b b' := by
  obtain ⟨c, hc, _, hcrole, _⟩ := steps_of_place h
  refine ⟨.single (.place ?_ hafter ?_ h), ⟨[c], hc, ?_⟩, fun m hm => (isReady_place h m).trans hm⟩
  · rw [hrole]
    exact nofun
  · rw [hrole]
    exact nofun
  · intro t ht
    rw [List.mem_singleton.mp ht, hcrole, hrole]

theorem prepares_addPreparation {before : List CompiledStep} {c : CompiledStep}
    (hsteps : b.steps = before ++ [c])
    (hrole : c.role = .bootstrap) (hunused : ∀ t ∈ b.steps, t.role = .step → t.kind.machine ≠ m) :
    Prepares p b (b.addPreparation c.activities m) := by
  refine ⟨.single (.prepare hsteps hrole hunused), ⟨[], ?_, fun _ hs => absurd hs List.not_mem_nil⟩, ?_⟩
  · rw [steps_addPreparation, List.append_nil]
  · cases m <;> exact fun _ => id

/-! ### Preparing a machine -/

/-- What is required of expanding the steps that prepare a machine. -/
def ExpandsBootstrap (p : Plan) (expand : PlannedStep → Build → Except Error Build) : Prop :=
  ∀ s b b', s.role = .bootstrap → s.after ⊆ b.steps.map CompiledStep.id → Settled b → expand s b = .ok b' →
    Prepares p b b' ∧ ∃ before c, b'.steps = before ++ [c] ∧ c.id = s.id ∧ c.role = .bootstrap

theorem expandsBootstrap_expandWith {prepare : Machine → Build → Except Error Build}
    (hprepare : ∀ m b b', Settled b → prepare m b = .ok b' → Prepares p b b') :
    ExpandsBootstrap p (expandWith p prepare) := by
  intro s b b' hrole hafter hb h
  simp only [expandWith, guard_eq_ok_iff, bind_eq_ok_iff] at h
  obtain ⟨_, type, _, b₁, h₁, h⟩ := h
  have hb₁ := hprepare _ b b₁ hb h₁
  obtain ⟨c, hc, hid, hcrole, _⟩ := steps_of_place h
  refine ⟨hb₁.trans (prepares_place hrole (List.Subset.trans hafter hb₁.subset_ids) h), _, c, hc, hid, ?_⟩
  rw [hcrole, hrole]

theorem activitiesOf_last {before : List CompiledStep} {c : CompiledStep}
    (hsteps : b.steps = before ++ [c]) :
    b.activitiesOf c.id = c.activities := by
  unfold activitiesOf step?
  rw [hsteps, List.reverse_append]
  simp

/-- By induction on the steps that prepare a machine: before each of them, no step of the definition
uses the machine. -/
theorem prepares_expandBootstrap {expand : PlannedStep → Build → Except Error Build}
    (hexpand : ExpandsBootstrap p expand)
    {position : ℕ} {previous : Option String} {vs : List Yaml.Value} (hb : Settled b)
    (hprevious : previous.toList ⊆ b.steps.map CompiledStep.id)
    (hunused : ∀ t ∈ b.steps, t.role = .step → t.kind.machine ≠ m)
    (h : expandBootstrap p expand m position previous vs b = .ok b') : Prepares p b b' := by
  induction vs generalizing position previous b with
  | nil =>
      cases h
      exact Prepares.refl _
  | cons v vs ih =>
      simp only [expandBootstrap, bind_eq_ok_iff] at h
      obtain ⟨d, _, id, _, b₁, h₁, h⟩ := h
      obtain ⟨hp₁, before, c, hc, rfl, hcrole⟩ := hexpand _ b b₁ rfl hprevious hb h₁
      rw [activitiesOf_last hc] at h
      have hunused₁ : ∀ t ∈ b₁.steps, t.role = .step → t.kind.machine ≠ m :=
        fun t ht hrole => hunused t (hp₁.mem_steps ht hrole) hrole
      have hp₂ : Prepares p b₁ (b₁.addPreparation c.activities m) :=
        prepares_addPreparation hc hcrole hunused₁
      have hp := hp₁.trans hp₂
      refine hp.trans (ih (hp.settled hb) ?_ ?_ h)
      · intro x hx
        rw [List.mem_singleton.mp hx]
        apply hp₂.subset_ids
        rw [hc, List.map_append]
        exact List.mem_append_right _ List.mem_cons_self
      · exact fun t ht hrole => hunused₁ t (hp₂.mem_steps ht hrole) hrole

/-- Preparing a machine is a run behind which the machine is there, by induction on how many
machines may need each other. -/
theorem prepares_prepare {depth : ℕ} (hb : Settled b) (h : prepare p depth m b = .ok b') :
    Prepares p b b' ∧ (0 < depth → b'.isReady m = true) := by
  induction depth generalizing m b b' with
  | zero =>
      cases h
      exact ⟨Prepares.refl b, fun h => absurd h (Nat.lt_irrefl 0)⟩
  | succ depth ih =>
      unfold prepare at h
      by_cases hready : b.isReady m = true
      · rw [if_pos hready] at h
        cases h
        exact ⟨Prepares.refl b, fun _ => hready⟩
      · rw [if_neg hready, bind_eq_ok_iff] at h
        obtain ⟨b₁, h₁, h⟩ := h
        have hp₁ := prepares_addMachine (Bool.eq_false_iff.mpr hready) h₁
        have hunused : ∀ t ∈ b₁.steps, t.role = .step → t.kind.machine ≠ m := by
          intro t ht hrole hm
          apply hready
          rw [← hm]
          exact hb t (hp₁.mem_steps ht hrole) hrole
        have hexpand : ExpandsBootstrap p (expandWith p (prepare p depth)) :=
          expandsBootstrap_expandWith fun _ _ _ hb h => (ih hb h).1
        have hp₂ := prepares_expandBootstrap hexpand (hp₁.settled hb) (List.nil_subset _) hunused h
        exact ⟨hp₁.trans hp₂, fun _ => hp₂.ready m (isReady_addMachine h₁)⟩

/-! ### All steps -/

/-- A step of the definition: its machine is prepared, and then the step is placed. -/
theorem run_expand (hb : Settled b) (hrole : s.role = .step) (hafter : s.after = [])
    (h : expand p s b = .ok b') :
    ReflTransGen (Change p) b b' ∧ Settled b' := by
  simp only [expand, expandWith, guard_eq_ok_iff, bind_eq_ok_iff] at h
  obtain ⟨_, type, _, b₁, h₁, h⟩ := h
  obtain ⟨hp, hready⟩ := prepares_prepare hb h₁
  have hready₁ : b₁.isReady type.kind.machine = true := hready Nat.zero_lt_two
  constructor
  · refine hp.run.tail (.place ?_ ?_ (fun _ => hready₁) h)
    · rw [hrole]
      rintro ⟨⟩
    · rw [hafter]
      exact List.nil_subset _
  · obtain ⟨c, hc, _, _, hkind⟩ := steps_of_place h
    intro t ht htrole
    rw [hc, List.mem_append, List.mem_singleton] at ht
    rcases ht with ht | rfl
    · exact (isReady_place h _).trans (hp.settled hb t ht htrole)
    · rw [hkind]
      exact (isReady_place h _).trans hready₁

theorem run_expandSteps {ds : List Descriptor} {position : ℕ} (hb : Settled b)
    (h : expandSteps p position ds b = .ok b') : ReflTransGen (Change p) b b' ∧ Settled b' := by
  induction ds generalizing position b with
  | nil =>
      cases h
      exact ⟨.refl, hb⟩
  | cons d ds ih =>
      simp only [expandSteps, bind_eq_ok_iff] at h
      obtain ⟨id, _, b₁, h₁, h⟩ := h
      obtain ⟨hrun, hb₁⟩ := run_expand hb rfl rfl h₁
      obtain ⟨hrun', hb'⟩ := ih hb₁ h
      exact ⟨hrun.trans hrun', hb'⟩

/-- The end of a build: the step behind all others is placed, waiting for every one of them. -/
inductive Ends (p : Plan) : Build → Build → Prop
  | without {b : Build} (h : p.teardown? = .ok none) : Ends p b b
  | teardown {b b' : Build} {d : Descriptor} {id : String} {type : Step.StepType}
      (h : p.teardown? = .ok (some d)) (hnew : b.step? id = none)
      (hplace : place p
        { descriptor := d, id, role := .teardown, after := b.steps.map CompiledStep.id } type b = .ok b') :
      Ends p b b'

theorem ends_expandTeardown (hb : Settled b) (h : expandTeardown p b = .ok b') :
    ∃ b₁, ReflTransGen (Change p) b b₁ ∧ Ends p b₁ b' := by
  simp only [expandTeardown, bind_eq_ok_iff] at h
  obtain ⟨t, ht, h⟩ := h
  cases t with
  | none =>
      cases h
      exact ⟨b, .refl, .without ht⟩
  | some d =>
      simp only [bind_eq_ok_iff] at h
      obtain ⟨type, htype, b₁, h₁, h⟩ := h
      obtain ⟨hp, hready⟩ := prepares_prepare hb h₁
      have hready₁ : b₁.isReady type.kind.machine = true := hready Nat.zero_lt_two
      simp only [expand, expandWith, guard_eq_ok_iff, bind_eq_ok_iff, htype] at h
      obtain ⟨hnew, type', htype', b₂, h₂, h⟩ := h
      cases htype'
      rw [machines, prepare, if_pos hready₁] at h₂
      cases h₂
      refine ⟨b₁, hp.run, .teardown ht ?_ h⟩
      exact Option.not_isSome_iff_eq_none.mp hnew

end Build

/-- The objects that every pipeline has: the schedule, the alarm if there is one, and the defaults. -/
theorem base_spec {p : Plan} {start : Time.Instant} {b : Build}
    (h : Compiler.base p start = .ok b) :
    ∃ s d g, ∃ alarm : Option Workflow.Alarm, b = { graph := g } ∧
      g.objects = .schedule s :: (alarm.toList.map Object.alarm ++ [.defaults d]) ∧
      alarm.isSome = p.topic.isSome ∧ d.schedule = Workflow.Schedule.id ∧
      (d.onFail = p.topic.map fun _ => Workflow.Alarm.id) ∧ d.logs = p.paths.logs := by
  simp only [Compiler.base] at h
  split at h
  · next topic htopic =>
      simp only [bind_eq_ok_iff, Build.addObject_eq_ok_iff, mapError_eq_ok_iff] at h
      obtain ⟨_, ⟨g₁, hg₁, rfl⟩, role, _, _, ⟨g₂, hg₂, rfl⟩, role', _, resourceRole, _, g₃, hg₃, rfl⟩ := h
      refine ⟨⟨start.text, p.definition.frequency⟩,
        ⟨role', resourceRole, p.paths.logs, Workflow.Schedule.id,
          p.topic.map fun _ => Workflow.Alarm.id⟩, g₃, some ⟨topic, p.name, role⟩, rfl, ?_, ?_, rfl, rfl, rfl⟩
      · rw [Workflow.Graph.objects_of_add hg₃, Workflow.Graph.objects_of_add hg₂,
          Workflow.Graph.objects_of_add hg₁]
        rfl
      · rw [htopic]
        rfl
  · next htopic =>
      simp only [bind_eq_ok_iff, Build.addObject_eq_ok_iff, mapError_eq_ok_iff, pure_eq_ok_iff] at h
      obtain ⟨_, ⟨g₁, hg₁, rfl⟩, _, rfl, role, _, resourceRole, _, g₂, hg₂, rfl⟩ := h
      refine ⟨⟨start.text, p.definition.frequency⟩,
        ⟨role, resourceRole, p.paths.logs, Workflow.Schedule.id,
          p.topic.map fun _ => Workflow.Alarm.id⟩, g₂, none, rfl, ?_, ?_, rfl, rfl, rfl⟩
      · rw [Workflow.Graph.objects_of_add hg₂, Workflow.Graph.objects_of_add hg₁]
        rfl
      · rw [htopic]
        rfl

theorem settled_base {p : Plan} {start : Time.Instant} {b : Build}
    (h : Compiler.base p start = .ok b) : b.Settled := by
  obtain ⟨_, _, _, _, rfl, _⟩ := base_spec h
  exact fun s hs => absurd hs List.not_mem_nil

/-- Every build is a run from the objects that every pipeline has. -/
theorem build_run {p : Plan} {start : Time.Instant} {b : Build}
    (h : Compiler.build p start = .ok b) :
    ∃ b₀ b₁, Compiler.base p start = .ok b₀ ∧
      ReflTransGen (Build.Change p) b₀ b₁ ∧ Build.Ends p b₁ b := by
  simp only [Compiler.build, bind_eq_ok_iff] at h
  obtain ⟨b₀, h₀, b₁, h₁, h⟩ := h
  obtain ⟨hrun, hb₁⟩ := Build.run_expandSteps (settled_base h₀) h₁
  obtain ⟨b₂, hrun', hends⟩ := Build.ends_expandTeardown hb₁ h
  exact ⟨b₀, b₂, h₀, hrun.trans hrun', hends⟩

end EtlFlow.Pipeline
