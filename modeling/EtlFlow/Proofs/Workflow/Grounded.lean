import EtlFlow.Proofs.Dependency.Reduction
import EtlFlow.Proofs.Workflow.References
/-!
# Graphs in the order of their references

A graph is grounded when its objects refer to earlier ones only, and its activities wait for earlier
activities only. Adding objects that do so keeps it grounded (`Grounded.addAll`).  In a grounded
graph every reference is answered by an earlier record (`Grounded.closed`), and its activities have
an order (`Grounded.ofActivities`), which remains when they are reduced
(`Grounded.runsBefore_reduced`).
-/

namespace EtlFlow.Workflow.Graph

open Sequence (Founded)
open Dependency (Dag)

variable {g g' : Graph} {o : Object} {os : List Object}

/-- Objects refer to earlier objects, and activities wait for earlier activities. -/
structure Grounded (g : Graph) : Prop where
  objects : Founded Object.id Object.targets [] g.objects
  work : Founded Activity.id Activity.dependsOn [] g.activities

/-! ### Adding objects -/

theorem ids_of_addAll (h : g'.objects = g.objects ++ os) : g'.ids = g.ids ++ os.map Object.id := by
  unfold ids
  rw [h, List.map_append]

theorem activities_of_addAll (h : g'.objects = g.objects ++ os) :
    g'.activities = g.activities ++ os.filterMap Object.activity? := by
  unfold activities
  rw [h, List.filterMap_append]

theorem Grounded.addAll (hg : g.Grounded) (h : g'.objects = g.objects ++ os)
    (hobjects : Founded Object.id Object.targets g.ids os)
    (hwork : Founded Activity.id Activity.dependsOn (g.activities.map Activity.id)
      (os.filterMap Object.activity?)) : g'.Grounded := by
  constructor
  · rw [h, Sequence.founded_append, List.append_nil]
    exact ⟨hg.objects, hobjects⟩
  · rw [activities_of_addAll h, Sequence.founded_append, List.append_nil]
    exact ⟨hg.work, hwork⟩

theorem Grounded.add (hg : g.Grounded) (h : g.add o = .ok g') (ho : o.activity? = none)
    (ht : o.targets ⊆ g.ids) :
    g'.Grounded := by
  refine hg.addAll (objects_of_add h) ⟨ht, trivial⟩ ?_
  rw [List.filterMap_cons_none ho]
  trivial

/-! ### Records -/

/-- Records with distinct ids, each of which refers to earlier ones only. -/
structure Closed (records : List Record) : Prop where
  nodup_ids : (records.map Record.id).Nodup
  reference_lt : ∀ (j : ℕ) (r : Record), records[j]? = some r →
    ∀ key x, (key, FieldValue.reference x) ∈ r.fields → ∃ (i : ℕ) (r' : Record), i < j ∧ records[i]? = some r' ∧ r'.id = x

theorem Grounded.closed (hg : g.Grounded) : Closed g.records where
  nodup_ids := by
    unfold records
    rw [List.map_map]
    have hid : Record.id ∘ Object.record = Object.id := funext Object.id_record
    rw [hid]
    exact g.nodup_ids
  reference_lt := by
    intro j r hr key x hx
    unfold records at hr ⊢
    rw [List.getElem?_map, Option.map_eq_some_iff] at hr
    obtain ⟨o, ho, rfl⟩ := hr
    have htarget : x ∈ o.targets := Field.mem_targets_iff.mpr ⟨key, hx⟩
    obtain ⟨i, o', hi, ho', rfl⟩ := hg.objects.exists_lt ho htarget
    refine ⟨i, o'.record, hi, ?_, Object.id_record o'⟩
    rw [List.getElem?_map, ho']
    rfl

theorem Grounded.checkReferences (hg : g.Grounded) : g.checkReferences = .ok () := by
  rw [checkReferences_eq_ok_iff]
  intro o ho x hx
  obtain ⟨j, hj, rfl⟩ := List.mem_iff_getElem.mp ho
  obtain ⟨i, o', _, ho', rfl⟩ := hg.objects.exists_lt (List.getElem?_eq_getElem hj) hx
  exact List.mem_map_of_mem (List.mem_of_getElem? ho')

/-! ### The order of activities -/

/-- The graph of the activities. -/
def dag (g : Graph) : Dag := ⟨g.activities.map .ofActivity⟩

theorem Grounded.ofActivities (hg : g.Grounded) : Dag.ofActivities g.activities = .ok g.dag :=
  Dag.ofActivities_eq_ok_iff.mpr ⟨rfl, Dag.sound_of_founded nodup_activityIds hg.work⟩

theorem precedes_dag : g.dag.Precedes = g.RunsBefore := by
  unfold Dag.Precedes RunsBefore dag
  rw [Dag.waits_map_ofActivity nodup_activityIds]

/-- Nothing runs before itself. -/
theorem Grounded.irrefl (hg : g.Grounded) (x : ObjectId) : ¬ g.RunsBefore x x :=
  hg.work.acyclic nodup_activityIds x

/-! ### Waiting for less -/

theorem activities_mapActivities (f : Activity → Activity) (h : ∀ a, (f a).id = a.id) :
    (g.mapActivities f h).activities = g.activities.map f := by
  unfold activities mapActivities
  rw [List.filterMap_map, List.map_filterMap]
  congr 1
  funext o
  exact Object.activity?_mapActivity f o

/-- The graph whose activities are reduced. -/
def reduced (g : Graph) : Graph := g.setDependencies fun a => g.dag.reduced a.id

theorem objects_reduced : g.reduced.objects =
    g.objects.map (·.mapActivity fun a => a.setDependencies (g.dag.reduced a.id)) := rfl

theorem activities_reduced : g.reduced.activities = g.dag.withReduced g.activities :=
  activities_mapActivities (fun a => a.setDependencies (g.dag.reduced a.id))
    fun a => Activity.id_setDependencies a _

theorem Grounded.reduced (hg : g.Grounded) : g.reduced.Grounded := by
  have hok := hg.ofActivities
  have hsub : ∀ a ∈ g.activities,
      (a.setDependencies (g.dag.reduced a.id)).dependsOn ⊆ a.dependsOn ++ [] := by
    intro a ha
    rw [Dag.dependsOn_setDependencies_reduced hok ha, List.append_nil]
    exact (Dag.reduced_sublist_dependsOn hok ha).subset
  constructor
  · refine hg.objects.map (Object.id_mapActivity fun a => Activity.id_setDependencies a _) ?_
      (List.nil_subset _)
    intro o ho
    apply Object.targets_mapActivity_subset
    · exact fun a _ => Activity.independent_setDependencies a _
    · exact fun a ha => hsub a (List.mem_filterMap.mpr ⟨o, ho, ha⟩)
  · rw [activities_reduced]
    exact hg.work.map (fun a => Activity.id_setDependencies a _) hsub (List.nil_subset _)

/-- Objects behind a graph change nothing about what is left of its activities' waiting. -/
theorem Grounded.reduced_front (hg : g'.Grounded) (h : g.objects <+: g'.objects) :
    g.reduced.objects <+: g'.reduced.objects := by
  obtain ⟨os, hos⟩ := h
  have hwork := activities_of_addAll hos.symm
  have hfounded := hg.work
  have hids : (g'.activities.map Activity.id).Nodup := nodup_activityIds
  rw [hwork] at hfounded hids
  refine ⟨os.map (·.mapActivity fun a => a.setDependencies (g'.dag.reduced a.id)), ?_⟩
  rw [objects_reduced, objects_reduced, ← hos, List.map_append]
  congr 1
  apply List.map_congr_left
  intro o ho
  cases o with
  | activity a =>
      have ha : a ∈ g.activities := List.mem_filterMap.mpr ⟨_, ho, rfl⟩
      have hsame : g'.dag.reduced a.id = g.dag.reduced a.id := by
        rw [dag, hwork]
        exact Dag.reduced_front hids hfounded ha
      simp only [Object.mapActivity, hsame]
  | _ => rfl

/-- The reduction keeps what runs before what. -/
theorem Grounded.runsBefore_reduced (hg : g.Grounded) : g.reduced.RunsBefore = g.RunsBefore := by
  rw [← precedes_dag, ← precedes_dag, ← Dag.precedes_withReduced hg.ofActivities]
  unfold dag
  rw [activities_reduced]
  rfl

end EtlFlow.Workflow.Graph
