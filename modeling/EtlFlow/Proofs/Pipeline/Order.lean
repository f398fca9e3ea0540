import EtlFlow.Proofs.Pipeline.Closed
/-!
# The activities of steps

The activities of a step wait for all activities of the steps that it waits for, and in a step of
the definition for all that prepare its machine; otherwise they wait only for each other.  Every
change of a build keeps that (`Accounted`).
-/

namespace EtlFlow.Pipeline

open Outcome
open Relation (ReflTransGen TransGen)
open Sequence (AtEach)
open Step (Machine Nodes)
open Workflow (Object ObjectId Activity)

namespace Build

variable {p : Plan} {b b' : Build} {m : Machine} {s : PlannedStep} {type : Step.StepType}

/-! ### What the activities of a step wait for -/

/-- The activities that those of a step wait for, when it stands behind the steps of `front`. -/
def waitsBehind (b : Build) (front : List CompiledStep) (c : CompiledStep) : List ObjectId :=
  ({ b with steps := front } : Build).waitsFor c.role c.kind.machine c.dependsOn

/-- Every activity belongs to a step and waits for what its step waits for, and apart from that for
activities of its step only. -/
structure Accounted (b : Build) : Prop where
  activities : b.graph.activities.map Activity.id = b.steps.flatMap CompiledStep.activities
  waits : AtEach (fun front c => ∀ a ∈ b.graph.activities, a.id ∈ c.activities →
    a.dependsOn ⊆ c.activities ++ b.waitsBehind front c ∧ b.waitsBehind front c ⊆ a.dependsOn) b.steps
  preparation : ∀ m, ∀ x ∈ b.preparation m,
    ∃ c ∈ b.steps, x ∈ c.activities ∧ c.activities ⊆ b.preparation m
  dependsOn : AtEach (fun front c => c.dependsOn ⊆ front.map CompiledStep.id) b.steps
  producers : ∀ q ∈ b.producers, q.2 ∈ b.steps.map CompiledStep.id

theorem waitsBehind_congr {front : List CompiledStep} {c : CompiledStep}
    (h : c.role = .step → b'.preparation c.kind.machine = b.preparation c.kind.machine) :
    b'.waitsBehind front c = b.waitsBehind front c := by
  have hprep : (if c.role = .step then b'.preparation c.kind.machine else []) =
      if c.role = .step then b.preparation c.kind.machine else [] := by
    by_cases hrole : c.role = .step
    · rw [if_pos hrole, if_pos hrole, h hrole]
    · rw [if_neg hrole, if_neg hrole]
  exact congrArg (c.dependsOn.flatMap ({ b with steps := front } : Build).activitiesOf ++ ·) hprep

theorem Accounted.sameSteps (hb : Accounted b) (h : SameSteps b b') : Accounted b' where
  activities := by
    rw [h.activities, h.steps]
    exact hb.activities
  waits := by
    rw [h.activities, h.steps]
    intro front c back hc
    rw [waitsBehind_congr fun _ => congrFun h.preparation _]
    exact hb.waits front c back hc
  preparation := by
    rw [h.preparation, h.steps]
    exact hb.preparation
  dependsOn := by
    rw [h.steps]
    exact hb.dependsOn
  producers := by
    rw [h.producers, h.steps]
    exact hb.producers

/-! ### Placing a step -/

theorem mem_steps_of_step? {id : String} {c : CompiledStep} (h : b.step? id = some c) :
    c ∈ b.steps ∧ c.id = id := by
  unfold step? at h
  refine ⟨List.mem_reverse.mp (List.mem_of_find?_eq_some h), ?_⟩
  simpa using List.find?_some h

/-- A step waits for the steps that it names, for those that make what it reads, and for those that
it waits for in any case; all of them stand before it. -/
theorem mem_predecessors {input : Nodes} {ids : List String} (h : b.predecessors s input = .ok ids)
    (hproducers : ∀ q ∈ b.producers, q.2 ∈ b.steps.map CompiledStep.id)
    (hafter : s.after ⊆ b.steps.map CompiledStep.id) {id : String} :
    (id ∈ ids → id ∈ b.steps.map CompiledStep.id) ∧ (id ∈ s.after → id ≠ s.id → id ∈ ids) := by
  simp only [predecessors] at h
  split at h
  · cases h
  · next hnamed =>
      cases h
      simp only [Sequence.mem_addAll, List.not_mem_nil, false_or, List.mem_filter, List.mem_append,
        decide_eq_true_eq, ne_eq]
      constructor
      · rintro ⟨(hid | hid) | hid, _⟩
        · have hsome := List.find?_eq_none.mp hnamed id hid
          obtain ⟨c, hc⟩ := Option.ne_none_iff_exists'.mp (by simpa using hsome)
          obtain ⟨hmem, rfl⟩ := mem_steps_of_step? hc
          exact List.mem_map_of_mem hmem
        · obtain ⟨n, _, hlookup⟩ := List.mem_filterMap.mp hid
          obtain ⟨_, _, hsplit, _⟩ := List.lookup_eq_some_iff.mp hlookup
          apply hproducers (n.id, id)
          rw [hsplit]
          exact List.mem_append_right _ List.mem_cons_self
        · exact hafter hid
      · exact fun hid hne => ⟨.inr hid, hne⟩

/-- The ids of the old activities are not those of the new ones. -/
theorem AddedStep.disjoint {c : CompiledStep} {objects : List Object}
    (h : AddedStep b b' c objects) {x : ObjectId} (hx : x ∈ b.graph.activities.map Activity.id)
    (hx' : x ∈ (objects.filterMap Object.activity?).map Activity.id) : False := by
  have hn := b'.graph.nodup_activityIds
  rw [Workflow.Graph.activities_of_addAll h.objects, List.map_append] at hn
  exact (List.nodup_append.mp hn).2.2 x hx x hx' rfl

/-- An activity with the id of an old one is an old one. -/
theorem AddedStep.mem_old {c : CompiledStep} {objects : List Object}
    (h : AddedStep b b' c objects) {a : Activity} (ha : a ∈ b'.graph.activities)
    (hid : a.id ∈ b.graph.activities.map Activity.id) : a ∈ b.graph.activities := by
  rw [Workflow.Graph.activities_of_addAll h.objects, List.mem_append] at ha
  exact ha.resolve_right fun hnew => h.disjoint hid (List.mem_map_of_mem hnew)

/-- An activity with the id of a new one is a new one. -/
theorem AddedStep.mem_new {c : CompiledStep} {objects : List Object}
    (h : AddedStep b b' c objects) {a : Activity} (ha : a ∈ b'.graph.activities)
    (hid : a.id ∈ (objects.filterMap Object.activity?).map Activity.id) :
    a ∈ objects.filterMap Object.activity? := by
  rw [Workflow.Graph.activities_of_addAll h.objects, List.mem_append] at ha
  exact ha.resolve_left fun hold => h.disjoint (List.mem_map_of_mem hold) hid

section

variable {kind : Step.Kind} {input : Nodes} {dependsOn : List String} {e : Step.Expansion}

/-- The activities of a step that is placed wait for what the step waits for, and apart from that
for each other. -/
theorem waits_placed (hg : Grounded p b) (he : e.Sound (b.context p s kind.machine input))
    (h : AddedStep b b' (compiled s kind input dependsOn e) (b.placed s kind dependsOn e))
    {a : Activity} (ha : a ∈ (b.placed s kind dependsOn e).filterMap Object.activity?) :
    a.dependsOn ⊆ e.activities ++ b.waitsFor s.role kind.machine dependsOn ∧
      b.waitsFor s.role kind.machine dependsOn ⊆ a.dependsOn := by
  have hnew := activities_placed b s kind dependsOn he
  rw [work_placed] at ha
  obtain ⟨a₀, ha₀, rfl⟩ := List.mem_map.mp ha
  have hown : a₀.dependsOn ⊆ e.activities := by
    have := he.work.needs_subset ha₀
    rwa [List.append_nil, ← he.activities] at this
  constructor
  · refine List.Subset.trans (Activity.dependsOn_addDependencies_subset a₀ _) ?_
    exact List.append_subset.mpr ⟨List.Subset.trans hown (List.subset_append_left _ _),
      List.subset_append_right _ _⟩
  · intro x hx
    refine Activity.mem_addDependencies.mpr (.inr ⟨hx, ?_⟩)
    -- what the step waits for is there already, so that no new activity is meant
    rintro rfl
    refine h.disjoint (hg.waitsFor hx) ?_
    rw [hnew, he.activities]
    exact List.mem_map_of_mem ha₀

theorem Accounted.addedStep (hb : Accounted b) (hg : Grounded p b)
    (he : e.Sound (b.context p s kind.machine input)) (hd : dependsOn ⊆ b.steps.map CompiledStep.id)
    (h : AddedStep b b' (compiled s kind input dependsOn e) (b.placed s kind dependsOn e)) :
    Accounted b' := by
  have hnew := activities_placed b s kind dependsOn he
  have hwaits (front : List CompiledStep) (c : CompiledStep) :
      b'.waitsBehind front c = b.waitsBehind front c :=
    waitsBehind_congr fun _ => congrFun h.preparation _
  refine ⟨?_, ?_, ?_, ?_, ?_⟩
  · rw [Workflow.Graph.activities_of_addAll h.objects, List.map_append, hb.activities, hnew, h.steps,
      List.flatMap_append]
    simp [compiled]
  · rw [h.steps, Sequence.atEach_append_singleton]
    simp only [hwaits]
    constructor
    · intro front c back hc a ha hac
      refine hb.waits front c back hc a (h.mem_old ha ?_) hac
      rw [hb.activities, hc]
      exact List.mem_flatMap.mpr ⟨c, List.mem_append_right _ List.mem_cons_self, hac⟩
    · intro a ha hac
      exact waits_placed hg he h (h.mem_new ha (hnew ▸ hac))
  · rw [h.preparation, h.steps]
    intro m x hx
    obtain ⟨c, hc, hxc, hsub⟩ := hb.preparation m x hx
    exact ⟨c, List.mem_append_left _ hc, hxc, hsub⟩
  · rw [h.steps, Sequence.atEach_append_singleton]
    exact ⟨hb.dependsOn, hd⟩
  · rw [h.steps, List.map_append]
    intro q hq
    rcases h.producers q hq with hq | hq
    · exact List.mem_append_left _ (hb.producers q hq)
    · rw [hq]
      exact List.mem_append_right _ List.mem_cons_self

end

theorem Accounted.place (hb : Accounted b) (hg : Grounded p b)
    (hafter : s.after ⊆ b.steps.map CompiledStep.id)
    (h : place p s type b = .ok b') : Accounted b' := by
  obtain ⟨b₁, h₁, input, b₂, h₂, dependsOn, hd, e, he, h⟩ := place_eq_ok_iff.mp h
  have hsame : SameSteps b b₂ := (sameSteps_provideWarehouse h₁).trans (sameSteps_resolveInput h₂)
  have hb₂ := hb.sameSteps hsame
  have hg₂ := ((hg.provideWarehouse h₁).resolveInput h₂).1
  rw [← hsame.steps] at hafter
  refine hb₂.addedStep hg₂ (Step.expand_sound he) ?_ (addedStep_of_addStep h)
  exact fun id hid => (mem_predecessors hd hb₂.producers hafter).1 hid

/-! ### Runs -/

theorem Accounted.addPreparation (hb : Accounted b) {c : CompiledStep} (hc : c ∈ b.steps)
    (hunused : ∀ t ∈ b.steps, t.role = .step → t.kind.machine ≠ m) :
    Accounted (b.addPreparation c.activities m) := by
  have hsteps := steps_addPreparation b c.activities m
  have hgraph := graph_addPreparation b c.activities m
  have hproducers := producers_addPreparation b c.activities m
  refine ⟨?_, ?_, ?_, ?_, ?_⟩
  · rw [hgraph, hsteps]
    exact hb.activities
  · rw [hgraph, hsteps]
    intro front t back ht
    have hmem : t ∈ b.steps := by
      rw [ht]
      exact List.mem_append_right _ List.mem_cons_self
    rw [waitsBehind_congr fun hrole => ?_]
    · exact hb.waits front t back ht
    · rw [preparation_addPreparation, if_neg fun h => hunused t hmem hrole h.1]
  · intro m' x hx
    rw [hsteps]
    rw [preparation_addPreparation] at hx ⊢
    by_cases hm : m' = m ∧ m ≠ .none
    · rw [if_pos hm] at hx ⊢
      rcases List.mem_append.mp hx with hx | hx
      · obtain ⟨c', hc', hxc, hsub⟩ := hb.preparation m x hx
        exact ⟨c', hc', hxc, List.Subset.trans hsub (List.subset_append_left _ _)⟩
      · exact ⟨c, hc, hx, List.subset_append_right _ _⟩
    · rw [if_neg hm] at hx ⊢
      exact hb.preparation m' x hx
  · rw [hsteps]
    exact hb.dependsOn
  · rw [hproducers, hsteps]
    exact hb.producers

theorem Accounted.change (hb : Accounted b) (hg : Grounded p b) (h : Change p b b') :
    Accounted b' := by
  cases h with
  | machine _ h => exact hb.sameSteps (sameSteps_addMachine h)
  | place _ hafter _ h => exact hb.place hg hafter h
  | prepare hsteps _ hunused =>
      refine hb.addPreparation ?_ hunused
      rw [hsteps]
      exact List.mem_append_right _ List.mem_cons_self

theorem Accounted.run (hb : Accounted b) (hg : Grounded p b) (h : ReflTransGen (Change p) b b') :
    Accounted b' := by
  induction h with
  | refl => exact hb
  | tail hrun hchange ih => exact ih.change (hg.run hrun) hchange

end Build

theorem accounted_base {p : Plan} {start : Time.Instant} {b : Build}
    (h : Compiler.base p start = .ok b) :
    Build.Accounted b := by
  obtain ⟨s, d, g, alarm, rfl, hobjects, _⟩ := base_spec h
  refine ⟨?_, Sequence.atEach_nil, ?_, Sequence.atEach_nil, fun q hq => absurd hq List.not_mem_nil⟩
  · show g.activities.map Activity.id = []
    unfold Workflow.Graph.activities
    rw [hobjects]
    cases alarm <;> rfl
  · rintro (_ | _ | _) x hx <;> cases hx

theorem accounted_build {p : Plan} {start : Time.Instant} {b : Build}
    (h : Compiler.build p start = .ok b) :
    Build.Accounted b := by
  obtain ⟨b₀, b₁, h₀, hrun, hends⟩ := build_run h
  have hg₀ := grounded_base h₀
  have hb₁ := (accounted_base h₀).run hg₀ hrun
  cases hends with
  | without _ => exact hb₁
  | teardown _ _ hplace => exact hb₁.place (hg₀.run hrun) (List.Subset.refl _) hplace

end EtlFlow.Pipeline
