import EtlFlow.Proofs.Pipeline.Prefix
import EtlFlow.Proofs.Pipeline.Progress
import EtlFlow.Proofs.Step.Endings
/-!
# Where compiled steps come from

What a build knows about nodes is a matter of the steps that are placed: which names lead to nodes
(`registered`), which step made a node (`makers`), and what the last step of the definition makes
(`lastOutput`).  No two names lead to nodes of one id (`Recorded`).  The steps of a build realize
the plan one by one (`Plan.Realizes`), each being what its description comes to behind the steps
before it (`realizes_build`).
-/

namespace EtlFlow.Pipeline

open Outcome
open Sequence (AtEach)
open Step (Machine Nodes NodeRef Descriptor)
open Workflow (Object ObjectId)

/-! ### Nodes -/

/-- The nodes of a step, by the names under which later steps read them. -/
def CompiledStep.entries (s : CompiledStep) : List (String × NodeRef) :=
  match s.output with
  | .none => []
  | .single n => [(s.id, n)]
  | .named ns => ns

/-- The nodes of steps by name; of several with one name the first counts. -/
def registered (steps : List CompiledStep) : List (String × NodeRef) :=
  steps.reverse.flatMap CompiledStep.entries

/-- The step that made a node. -/
def makers (steps : List CompiledStep) : List (ObjectId × String) :=
  steps.reverse.flatMap fun s => s.output.refs.map fun n => (n.id, s.id)

/-- What the last step of the definition makes. -/
def lastOutput (steps : List CompiledStep) : Nodes :=
  ((steps.filter (·.role = .step)).getLast?.map CompiledStep.output).getD .none

variable {p : Plan} {b b' b₁ b₂ : Build} {m : Machine} {s : PlannedStep} {type : Step.StepType}
  {front steps : List CompiledStep} {t : CompiledStep}

theorem refs_entries (s : CompiledStep) : s.entries.map Prod.snd = s.output.refs := by
  unfold CompiledStep.entries
  cases s.output <;> rfl

theorem registered_append_singleton (steps : List CompiledStep) (t : CompiledStep) :
    registered (steps ++ [t]) = t.entries ++ registered steps := by
  rw [registered, List.reverse_append, List.reverse_singleton, List.singleton_append,
    List.flatMap_cons]
  rfl

theorem makers_append_singleton (steps : List CompiledStep) (t : CompiledStep) :
    makers (steps ++ [t]) = t.output.refs.map (fun n => (n.id, t.id)) ++ makers steps := by
  rw [makers, List.reverse_append, List.reverse_singleton, List.singleton_append, List.flatMap_cons]
  rfl

theorem lastOutput_append_singleton (steps : List CompiledStep) (t : CompiledStep) :
    lastOutput (steps ++ [t]) = if t.role = .step then t.output else lastOutput steps := by
  unfold lastOutput
  rw [List.filter_append]
  by_cases hrole : t.role = .step
  · rw [if_pos hrole, List.filter_cons_of_pos (by simpa using hrole), List.filter_nil,
      List.getLast?_append]
    rfl
  · rw [if_neg hrole, List.filter_cons_of_neg (by simpa using hrole), List.filter_nil,
      List.append_nil]

/-- Of several steps that make nodes of one name the last counts. -/
theorem mem_registered {name : String} {n : NodeRef} :
    (name, n) ∈ registered steps ↔ ∃ s ∈ steps, (name, n) ∈ s.entries := by
  simp only [registered, List.mem_flatMap, List.mem_reverse]

/-- The nodes that are made are those that are registered. -/
theorem makers_ids (steps : List CompiledStep) :
    (makers steps).map Prod.fst = (registered steps).map (·.2.id) := by
  unfold makers registered
  rw [List.map_flatMap, List.map_flatMap]
  congr 1
  funext s
  rw [← refs_entries, List.map_map, List.map_map]
  rfl

namespace Build

/-! ### The records of a build -/

/-- What a build knows about nodes is what its steps made, and each node has one name only. -/
structure Recorded (b : Build) : Prop where
  nodes : b.nodes = registered b.steps
  producers : b.producers = makers b.steps
  lastOutput : b.lastOutput = Pipeline.lastOutput b.steps
  distinct : ((registered b.steps).map (·.2.id)).Nodup

theorem Recorded.sameSteps (hb : b.Recorded) (h : SameSteps b b') : b'.Recorded where
  nodes := by rw [h.nodes, h.steps, hb.nodes]
  producers := by rw [h.producers, h.steps, hb.producers]
  lastOutput := by rw [h.lastOutput, h.steps, hb.lastOutput]
  distinct := by
    rw [h.steps]
    exact hb.distinct

theorem Recorded.addPreparation (hb : b.Recorded) (ids : List ObjectId) (m : Machine) :
    (b.addPreparation ids m).Recorded := by
  cases m <;> exact ⟨hb.nodes, hb.producers, hb.lastOutput, hb.distinct⟩

theorem addOutput_eq (b : Build) (s : CompiledStep) :
    b.addOutput s.id s.output = { b with
      nodes := s.entries ++ b.nodes
      producers := s.output.refs.map (fun n => (n.id, s.id)) ++ b.producers } := by
  unfold CompiledStep.entries
  cases s.output with
  | none => rfl
  | single n => rfl
  | named ns => simp [addOutput, Nodes.refs]

theorem records_of_addStep {objects : List Object} {artifacts : List Step.Artifact}
    (h : b.addStep t objects artifacts = .ok b') :
    b'.nodes = t.entries ++ b.nodes ∧
      b'.producers = t.output.refs.map (fun n => (n.id, t.id)) ++ b.producers ∧
      b'.lastOutput = if t.role = .step then t.output else b.lastOutput := by
  simp only [addStep, bind_eq_ok_iff, mapError_eq_ok_iff, pure_eq_ok_iff] at h
  obtain ⟨g, _, rfl⟩ := h
  rw [addOutput_eq]
  by_cases hrole : t.role = .step
  · rw [if_pos hrole, if_pos hrole]
    exact ⟨rfl, rfl, rfl⟩
  · rw [if_neg hrole, if_neg hrole]
    exact ⟨rfl, rfl, rfl⟩

/-- The nodes that a step makes are new objects, so none of them has a name already. -/
theorem Recorded.addStep (hb : b.Recorded) (hg : Grounded p b) {objects : List Object}
    {artifacts : List Step.Artifact} (h : b.addStep t objects artifacts = .ok b')
    (hobjects : t.output.ids ⊆ objects.map Object.id) (hapart : t.output.ids.Nodup) :
    b'.Recorded := by
  have hadded := addedStep_of_addStep h
  obtain ⟨hnodes, hproducers, hlast⟩ := records_of_addStep h
  refine ⟨?_, ?_, ?_, ?_⟩
  · rw [hnodes, hb.nodes, hadded.steps, registered_append_singleton]
  · rw [hproducers, hb.producers, hadded.steps, makers_append_singleton]
  · rw [hlast, hb.lastOutput, hadded.steps, lastOutput_append_singleton]
  · have hids : t.entries.map (·.2.id) = t.output.ids := by
      rw [Nodes.ids, ← refs_entries, List.map_map]
      rfl
    have hgraph : (b.graph.ids ++ objects.map Object.id).Nodup := by
      rw [← Workflow.Graph.ids_of_addAll hadded.objects]
      exact b'.graph.nodup_ids
    rw [hadded.steps, registered_append_singleton, List.map_append, hids, List.nodup_append]
    refine ⟨hapart, hb.distinct, ?_⟩
    rintro x hx _ hy rfl
    refine (List.nodup_append.mp hgraph).2.2 x ?_ x (hobjects hx) rfl
    obtain ⟨entry, hentry, rfl⟩ := List.mem_map.mp hy
    rw [← hb.nodes] at hentry
    exact hg.nodes entry hentry

end Build

/-! ### Steps of a plan -/

/-- The steps are those of the plan up to a progress, one by one, each related to what it is planned
as and to the steps before it. -/
def Plan.WorksOff (p : Plan) (P : Tally) (steps : List CompiledStep)
    (R : PlannedStep → List CompiledStep → CompiledStep → Prop) : Prop :=
  ∃ ledger : List (Origin × CompiledStep), ledger.map Prod.snd = steps ∧
    (∀ o, P o = ledger.countP (·.1 = o)) ∧
    AtEach (fun front entry => ∃ s, p.Plans entry.1 (front.countP (·.1 = entry.1)) s ∧
      entry.2.id = s.id ∧ entry.2.role = s.role ∧ R s (front.map Prod.snd) entry.2) ledger

/-- The steps realize the plan: among them are all steps of the definition. -/
def Plan.Realizes (p : Plan) (steps : List CompiledStep)
    (R : PlannedStep → List CompiledStep → CompiledStep → Prop) : Prop :=
  ∃ P, P .definition = p.definition.steps.length ∧ p.WorksOff P steps R

variable {R R' : PlannedStep → List CompiledStep → CompiledStep → Prop} {P : Tally} {o : Origin}

theorem worksOff_nil : p.WorksOff (fun _ => 0) [] R :=
  ⟨[], rfl, fun _ => rfl, Sequence.atEach_nil⟩

theorem Plan.WorksOff.append (h : p.WorksOff P steps R) (hs : p.Plans o (P o) s) (hid : t.id = s.id)
    (hrole : t.role = s.role) (ht : R s steps t) : p.WorksOff (P.advance o) (steps ++ [t]) R := by
  obtain ⟨ledger, rfl, hcount, hledger⟩ := h
  refine ⟨ledger ++ [(o, t)], by simp, ?_, ?_⟩
  · intro o'
    rw [List.countP_append, List.countP_singleton, ← hcount]
    by_cases ho : o' = o
    · subst ho
      simp [Tally.advance_self]
    · rw [Tally.advance_of_ne P ho]
      simp [Ne.symm ho]
  · rw [Sequence.atEach_append_singleton]
    refine ⟨hledger, s, ?_, hid, hrole, ht⟩
    rw [← hcount]
    exact hs

/-- Where each step stands and what it is planned as may matter for what it is related to. -/
theorem Plan.WorksOff.imp (h : p.WorksOff P steps R)
    (himp : ∀ o k s front t back, p.Plans o k s → steps = front ++ t :: back → R s front t →
      R' s front t) : p.WorksOff P steps R' := by
  obtain ⟨ledger, rfl, hcount, hledger⟩ := h
  refine ⟨ledger, rfl, hcount, ?_⟩
  rintro front entry back rfl
  obtain ⟨s, hs, hid, hrole, ht⟩ := hledger front entry back rfl
  exact ⟨s, hs, hid, hrole, himp _ _ s _ _ (back.map Prod.snd) hs (by simp) ht⟩

theorem Plan.Realizes.imp (h : p.Realizes steps R)
    (himp : ∀ o k s front t back, p.Plans o k s → steps = front ++ t :: back → R s front t →
      R' s front t) : p.Realizes steps R' := by
  obtain ⟨P, hP, hworks⟩ := h
  exact ⟨P, hP, hworks.imp himp⟩

/-- A planned step is one of the definition just if its origin is. -/
theorem Plan.Plans.role_eq_step_iff {k : ℕ} (h : p.Plans o k s) :
    s.role = .step ↔ o = .definition := by
  cases h <;> simp

/-- The element at a position of a filtered list, and the rest around it. -/
theorem exists_split_of_filter {α : Type} {q : α → Bool} {as : List α} {k : ℕ} {a : α}
    (h : (as.filter q)[k]? = some a) :
    ∃ front back, as = front ++ a :: back ∧ q a = true ∧ (front.filter q).length = k := by
  obtain ⟨hk, rfl⟩ := List.getElem?_eq_some_iff.mp h
  have hsplit : as.filter q =
      (as.filter q).take k ++ (as.filter q)[k] :: (as.filter q).drop (k + 1) := by
    rw [List.getElem_cons_drop, List.take_append_drop]
  obtain ⟨l₁, l₂, has, hl₁, hl₂⟩ := List.filter_eq_append_iff.mp hsplit
  obtain ⟨l₃, l₄, rfl, hl₃, hq, _⟩ := List.filter_eq_cons_iff.mp hl₂
  refine ⟨l₁ ++ l₃, l₄, by simpa using has, hq, ?_⟩
  have hnil : l₃.filter q = [] := List.filter_eq_nil_iff.mpr hl₃
  rw [List.filter_append, hl₁, hnil, List.append_nil, List.length_take, Nat.min_eq_left hk.le]

/-- The compiled steps of the definition are in the order of the definition. -/
theorem Plan.Realizes.exists_of_getElem? (h : p.Realizes steps R) {k : ℕ}
    (ht : (steps.filter (·.role = .step))[k]? = some t) :
    ∃ front back s, steps = front ++ t :: back ∧ (front.filter (·.role = .step)).length = k ∧
      p.Plans .definition k s ∧ t.id = s.id ∧ R s front t := by
  obtain ⟨P, _, ledger, rfl, _, hledger⟩ := h
  obtain ⟨front, back, hsplit, hrole, hk⟩ := exists_split_of_filter ht
  obtain ⟨ledger₁, rest, rfl, hfront, hrest⟩ := List.map_eq_append_iff.mp hsplit
  obtain ⟨entry, ledger₂, rfl, rfl, rfl⟩ := List.map_eq_cons_iff.mp hrest
  have horigin (e : Origin × CompiledStep) (he : e ∈ ledger₁ ++ entry :: ledger₂) :
      e.2.role = .step ↔ e.1 = .definition := by
    obtain ⟨l₁, l₂, hl⟩ := List.append_of_mem he
    obtain ⟨s, hs, _, hsrole, _⟩ := hledger l₁ e l₂ hl
    rw [hsrole]
    exact hs.role_eq_step_iff
  have hcount : ledger₁.countP (·.1 = .definition) = k := by
    rw [← hk, ← hfront, ← List.countP_eq_length_filter, List.countP_map]
    refine List.countP_congr fun e he => ?_
    simp [horigin e (List.mem_append_left _ he)]
  obtain ⟨s, hs, hid, _, ht⟩ := hledger ledger₁ entry ledger₂ rfl
  have hdefinition : entry.1 = .definition :=
    (horigin entry (List.mem_append_right _ List.mem_cons_self)).mp (by simpa using hrole)
  rw [hdefinition, hcount] at hs
  exact ⟨front, _, s, hsplit, hk, hs, hid, hfront ▸ ht⟩

/-! ### What placing a step comes to -/

/-- The step `t` is what a planned step came to behind the steps of `front` on the way to a build:
it was placed in the build `before`, and expanded when its input was `given`. -/
structure Placement (p : Plan) (b : Build) (s : PlannedStep) (front : List CompiledStep)
    (t : CompiledStep) (type : Step.StepType) (before given : Build) (e : Step.Expansion) :
    Prop where
  resolve : p.resolve s.descriptor = .ok type
  steps : before.steps = front
  recorded : before.Recorded
  grounded : before.Grounded p
  input : before.resolveInput s = .ok (t.input, given)
  dependsOn : given.predecessors s t.input = .ok t.dependsOn
  expand : Step.expand type.kind (Descriptor.withDefaults s.descriptor.arguments type.defaults)
    (given.context p s type.kind.machine t.input) = .ok e
  compiled : t = Build.compiled s type.kind t.input t.dependsOn e
  objects : given.graph.objects ++ given.placed s type.kind t.dependsOn e <+: b.graph.objects
  artifacts : e.artifacts ⊆ b.artifacts

theorem Placement.id_eq {before given : Build} {e : Step.Expansion}
    (ht : Placement p b s front t type before given e) : t.id = s.id := by
  rw [ht.compiled]
  rfl

/-- The step is what a planned step came to on the way to a build. -/
def Arises (p : Plan) (b : Build) (s : PlannedStep) (front : List CompiledStep) (t : CompiledStep) :
    Prop :=
  ∃ type before given e, Placement p b s front t type before given e

theorem Arises.grows (h : b.Grows b') (ht : Arises p b s front t) : Arises p b' s front t := by
  obtain ⟨type, before, given, e, ht⟩ := ht
  refine ⟨type, before, given, e, { ht with objects := ?_, artifacts := ?_ }⟩
  · exact ht.objects.trans h.objects
  · exact List.Subset.trans ht.artifacts h.artifacts.subset

namespace Build

/-- What holds on the way to a build. -/
structure Tracked (p : Plan) (P : Tally) (b : Build) : Prop where
  grounded : b.Grounded p
  recorded : b.Recorded
  works : p.WorksOff P b.steps (Arises p b)

theorem Tracked.addMachine (hb : b.Tracked p P) (h : b.addMachine p m = .ok b') :
    b'.Tracked p P where
  grounded := hb.grounded.addMachine h
  recorded := hb.recorded.sameSteps (sameSteps_addMachine h)
  works := by
    rw [(sameSteps_addMachine h).steps]
    exact hb.works.imp fun _ _ _ _ _ _ _ _ => Arises.grows (grows_addMachine h)

theorem grows_addPreparation (b : Build) (ids : List ObjectId) (m : Machine) :
    b.Grows (b.addPreparation ids m) := by
  cases m <;> exact ⟨List.prefix_refl _, List.prefix_refl _, List.prefix_refl _⟩

theorem Grounded.activitiesOf (hb : b.Grounded p) (id : String) :
    b.activitiesOf id ⊆ b.graph.activities.map Workflow.Activity.id := by
  unfold Build.activitiesOf
  cases hstep : b.step? id with
  | none => exact List.nil_subset _
  | some c => exact hb.steps c (List.mem_reverse.mp (List.mem_of_find?_eq_some hstep))

theorem Tracked.addPreparation (hb : b.Tracked p P) (id : String) (m : Machine) :
    (b.addPreparation (b.activitiesOf id) m).Tracked p P where
  grounded := hb.grounded.addPreparation (hb.grounded.activitiesOf id)
  recorded := hb.recorded.addPreparation _ m
  works := by
    rw [steps_addPreparation]
    exact hb.works.imp fun _ _ _ _ _ _ _ _ => Arises.grows (grows_addPreparation b _ m)

theorem Tracked.place (hb : b.Tracked p P) (hs : p.Plans o (P o) s)
    (htype : p.resolve s.descriptor = .ok type) (h : place p s type b = .ok b') :
    b'.Tracked p (P.advance o) := by
  obtain ⟨b₁, h₁, input, b₂, h₂, dependsOn, hd, e, he, hadd⟩ := place_eq_ok_iff.mp h
  have hsame₁ := sameSteps_provideWarehouse h₁
  have hsame₂ := sameSteps_resolveInput h₂
  have hg₁ := hb.grounded.provideWarehouse h₁
  have hr₁ := hb.recorded.sameSteps hsame₁
  have hadded := addedStep_of_addStep hadd
  have hob : (compiled s type.kind input dependsOn e).output.ids ⊆
      (b₂.placed s type.kind dependsOn e).map Object.id := by
    rw [ids_placed]
    exact (Step.expand_sound he).output
  refine ⟨hb.grounded.place h, ?_, ?_⟩
  · exact (hr₁.sameSteps hsame₂).addStep (hg₁.resolveInput h₂).1 hadd hob
      (Step.expand_outputsApart he)
  · rw [hadded.steps, hsame₂.steps, hsame₁.steps]
    have hworks : p.WorksOff P b.steps (Arises p b') :=
      hb.works.imp fun _ _ _ _ _ _ _ _ => Arises.grows (grows_place h)
    refine hworks.append hs rfl rfl ⟨type, b₁, b₂, e, htype, hsame₁.steps, hr₁, hg₁, h₂, hd, he,
      rfl, ?_, ?_⟩
    · rw [hadded.objects]
      exact List.prefix_refl _
    · rw [artifacts_addStep hadd]
      exact List.subset_append_right _ _

theorem keeps_tracked (p : Plan) : Keeps p (fun P b => Tracked p P b) fun _ => True where
  step _ := trivial
  repeated _ _ _ _ _ _ _ := trivial
  machine _ _ _ hb _ := ⟨fun _ h => hb.addMachine h, fun _ _ => trivial⟩
  place _ _ _ _ _ hb hs htype := ⟨fun _ h => hb.place hs htype h, fun _ _ => trivial⟩
  preparation _ _ m id hb := hb.addPreparation id m

end Build

/-- Every step of a build is what a planned step came to behind the steps before it. -/
theorem realizes_build {start : Time.Instant} (h : Compiler.build p start = .ok b) :
    p.Realizes b.steps (Arises p b) := by
  have hbase : Meets (fun b => Build.Tracked p (fun _ => 0) b) (fun _ => True)
      (Compiler.base p start) := by
    refine ⟨fun b₀ h₀ => ?_, fun _ _ => trivial⟩
    refine ⟨grounded_base h₀, ?_, ?_⟩
    · obtain ⟨_, _, _, _, rfl, _⟩ := base_spec h₀
      exact ⟨rfl, rfl, rfl, List.nodup_nil⟩
    · obtain ⟨_, _, _, _, rfl, _⟩ := base_spec h₀
      exact worksOff_nil
  obtain ⟨P, hb, hP⟩ := ((Build.keeps_tracked p).build hbase).1 b h
  exact ⟨P, hP, hb.works⟩

/-- Every step of a compiled pipeline is what a planned step came to. -/
theorem realizes_compileDefinition {c : Compiler} {d : Definition} {pl : Pipeline}
    (h : c.compileDefinition d = .ok pl) :
    ∃ p start b, c.plan d = .ok p ∧ Compiler.build p start = .ok b ∧ pl.steps = b.steps ∧
      pl.graph = b.graph.reduced ∧ pl.artifacts = b.artifacts ∧
      p.Realizes pl.steps (Arises p b) := by
  obtain ⟨b, hb, hgraph, hsteps⟩ := Compiler.compileDefinition_cases h
  obtain ⟨p, hp, start, _, hbuild⟩ := Compiler.built_eq_ok_iff.mp hb
  refine ⟨p, start, b, hp, hbuild, hsteps, hgraph, Compiler.artifacts_of_built hb h, ?_⟩
  rw [hsteps]
  exact realizes_build hbuild

end EtlFlow.Pipeline
