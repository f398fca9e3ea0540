import EtlFlow.Proofs.Outcome
import EtlFlow.Proofs.Sequence.Founded
import EtlFlow.Workflow.Activity
import EtlFlow.Workflow.Graph
import Mathlib.Data.List.Nodup
/-!
# Waiting, references and resources

Waiting for further activities adds those that are new, apart from the activity itself
(`mem_addDependencies`).  An activity that may wait for given ones does so in their order
(`setDependencies_eq`).

The `targets` of an object are the ids in the reference fields of its record.  A graph passes the
check of its references when every target is the id of an object (`checkReferences_eq_ok_iff`).

The machine, the cluster and the warehouse of a pipeline are resources, which its steps share.  The
stock of a graph counts the objects that are a resource.
-/

namespace EtlFlow.Workflow.Activity

variable {a : Activity} {ids : List ObjectId} {x : ObjectId}

/-! ### Only the waiting changes -/

theorem independent_addDependencies (a : Activity) (ids : List ObjectId) :
    (a.addDependencies ids).independent = a.independent := by
  unfold addDependencies
  induction ids generalizing a with
  | nil => rfl
  | cons i is ih =>
      rw [List.foldl_cons, ih]
      unfold addDependency
      split <;> rfl

theorem independent_setDependencies (a : Activity) (ids : List ObjectId) :
    (a.setDependencies ids).independent = a.independent :=
  independent_addDependencies a.independent ids

/-! ### The activities that are waited for -/

theorem mem_addDependencies :
    x ∈ (a.addDependencies ids).dependsOn ↔ x ∈ a.dependsOn ∨ (x ∈ ids ∧ x ≠ a.id) := by
  unfold addDependencies
  induction ids generalizing a with
  | nil => simp
  | cons i is ih =>
      rw [List.foldl_cons, ih, mem_addDependency, id_addDependency, List.mem_cons]
      constructor
      · rintro ((hx | ⟨rfl, hself⟩) | ⟨hx, hself⟩)
        · exact .inl hx
        · exact .inr ⟨.inl rfl, hself⟩
        · exact .inr ⟨.inr hx, hself⟩
      · rintro (hx | ⟨rfl | hx, hself⟩)
        · exact .inl (.inl hx)
        · exact .inl (.inr ⟨rfl, hself⟩)
        · exact .inr ⟨hx, hself⟩

theorem dependsOn_addDependencies_subset (a : Activity) (ids : List ObjectId) :
    (a.addDependencies ids).dependsOn ⊆ a.dependsOn ++ ids := by
  intro x hx
  rcases mem_addDependencies.mp hx with hx | ⟨hx, _⟩
  · exact List.mem_append_left _ hx
  · exact List.mem_append_right _ hx

/-- New ones, distinct from each other and from the activity, are added in their order. -/
theorem addDependencies_eq (hn : (a.dependsOn ++ ids).Nodup) (hself : a.id ∉ a.dependsOn ++ ids) :
    a.addDependencies ids =
      { a with dependsOn := a.dependsOn ++ ids, nodup_dependsOn := hn, not_dependsOn_self := hself } := by
  unfold addDependencies
  induction ids generalizing a with
  | nil => simp
  | cons i is ih =>
      have hi : i ∉ a.dependsOn := by
        intro hi
        exact (List.nodup_append.mp hn).2.2 i hi i List.mem_cons_self rfl
      have hia : i ≠ a.id := by
        rintro rfl
        exact hself (List.mem_append_right _ List.mem_cons_self)
      have hnew : Sequence.addNew a.dependsOn i = a.dependsOn ++ [i] := by
        unfold Sequence.addNew
        rw [if_neg hi]
      have hadd : (a.addDependency i).dependsOn = a.dependsOn ++ [i] := by
        unfold addDependency
        rw [dif_neg hia]
        exact hnew
      rw [List.append_cons, ← hadd] at hn hself
      rw [List.foldl_cons, ih hn (by rwa [id_addDependency])]
      unfold addDependency
      simp only [dif_neg hia, hnew, List.append_assoc, List.singleton_append]

theorem setDependencies_eq (hn : ids.Nodup) (hself : a.id ∉ ids) :
    a.setDependencies ids =
      { a with dependsOn := ids, nodup_dependsOn := hn, not_dependsOn_self := hself } := by
  have hnil : a.independent.dependsOn ++ ids = ids := List.nil_append ids
  unfold setDependencies
  rw [addDependencies_eq (hnil ▸ hn) (hnil ▸ hself)]
  rfl

theorem dependsOn_setDependencies (hn : ids.Nodup) (hself : a.id ∉ ids) :
    (a.setDependencies ids).dependsOn = ids := by
  rw [setDependencies_eq hn hself]

theorem setDependencies_self : a.setDependencies a.dependsOn = a := by
  rw [setDependencies_eq a.nodup_dependsOn a.not_dependsOn_self]

end EtlFlow.Workflow.Activity

namespace EtlFlow.Workflow

variable {x : ObjectId}

/-! ### Fields -/

/-- The ids that fields refer to. -/
def Field.targets (fs : List Field) : List ObjectId :=
  fs.filterMap fun
    | (_, .reference id) => some id
    | (_, .text _) => none

namespace Field

@[simp]
theorem targets_nil : targets [] = [] := rfl

@[simp]
theorem targets_append (fs gs : List Field) : targets (fs ++ gs) = targets fs ++ targets gs :=
  List.filterMap_append

@[simp]
theorem targets_texts (key : String) (ss : List String) : targets (texts key ss) = [] := by
  induction ss with
  | nil => rfl
  | cons s ss ih => exact ih

@[simp]
theorem targets_text (key s : String) : targets (text key s) = [] := targets_texts key [s]

@[simp]
theorem targets_location (key : String) (l : Storage.Location) : targets (location key l) = [] :=
  targets_text key l.uri

@[simp]
theorem targets_number (key : String) (n : Nat) : targets (number key n) = [] :=
  targets_text key (toString n)

@[simp]
theorem targets_references (key : String) (ids : List ObjectId) :
    targets (references key ids) = ids := by
  induction ids with
  | nil => rfl
  | cons i is ih => exact congrArg (i :: ·) ih

@[simp]
theorem targets_reference (key : String) (id : ObjectId) : targets (reference key id) = [id] :=
  targets_references key [id]

theorem mem_targets_iff {fs : List Field} :
    x ∈ targets fs ↔ ∃ key, (key, FieldValue.reference x) ∈ fs := by
  unfold targets
  rw [List.mem_filterMap]
  constructor
  · rintro ⟨⟨key, v⟩, hmem, hx⟩
    cases v with
    | text s => cases hx
    | reference id =>
        cases hx
        exact ⟨key, hmem⟩
  · rintro ⟨key, hmem⟩
    exact ⟨_, hmem, rfl⟩

end Field

/-! ### Objects -/

/-- The database of a command. -/
def Work.database? : Work → Option ObjectId
  | sql c => some c.database
  | _ => none

/-- What an activity refers to, apart from its data and from what it waits for. -/
def Activity.links (a : Activity) : List ObjectId :=
  a.schedule :: (a.runner.resource?.toList ++ a.onFail.toList ++ a.work.database?.toList)

/-- The ids that an object refers to. -/
def Object.targets (o : Object) : List ObjectId := Field.targets o.record.fields

namespace Object

theorem targets_runner (r : Runner) : Field.targets r.fields = r.resource?.toList := by
  cases r with
  | resource id => exact Field.targets_reference "runsOn" id
  | workerGroup name => exact Field.targets_text "workerGroup" name

theorem targets_work (w : Work) : Field.targets w.fields = w.database?.toList := by
  cases w with
  | shell c =>
      cases hstages : c.stages <;> simp [Work.fields, Work.database?, hstages]
  | copy => rfl
  | load mode options => simp [Work.fields, Work.database?]
  | emr steps => simp [Work.fields, Work.database?]
  | sql c => simp [Work.fields, Work.database?]

theorem mem_targets_activity {a : Activity} :
    x ∈ (activity a).targets ↔ x ∈ a.links ∨ x ∈ a.inputs ∨ x ∈ a.outputs ∨ x ∈ a.dependsOn := by
  have h : (activity a).targets = a.schedule :: (a.runner.resource?.toList ++ (a.inputs ++ (a.outputs ++
      (a.dependsOn ++ (a.onFail.toList ++ a.work.database?.toList))))) := by
    simp [targets, record, Activity.record, Record.ofType, targets_runner, targets_work]
  rw [h]
  unfold Activity.links
  simp only [List.mem_cons, List.mem_append]
  tauto

@[simp]
theorem targets_store (n : StoreNode) : (store n).targets = [n.schedule] := by
  simp [targets, record, StoreNode.record, Record.ofType]

@[simp]
theorem targets_table (n : TableNode) : (table n).targets = [n.schedule, n.database] := by
  show Field.targets n.record.fields = _
  unfold TableNode.record
  cases Text.splitFirst? '.' n.fullName <;> simp [Record.ofType]

@[simp]
theorem targets_query (n : QueryNode) : (query n).targets = [n.schedule, n.database] := by
  simp [targets, record, QueryNode.record, Record.ofType]

@[simp]
theorem targets_jdbc (d : JdbcDatabase) : (jdbc d).targets = [] := by
  simp [targets, record, JdbcDatabase.record, Record.ofType]

@[simp]
theorem targets_redshift (d : RedshiftDatabase) : (redshift d).targets = [] := by
  simp [targets, record, RedshiftDatabase.record, Record.ofType]

@[simp]
theorem targets_schedule (s : Schedule) : (schedule s).targets = [] := by
  simp [targets, record, Schedule.record, Record.ofType]

@[simp]
theorem targets_alarm (a : Alarm) : (alarm a).targets = [] := by
  simp [targets, record, Alarm.record, Record.ofType]

@[simp]
theorem targets_defaults (d : Defaults) : (defaults d).targets = d.schedule :: d.onFail.toList := by
  simp [targets, record, Defaults.record]

@[simp]
theorem targets_ec2 (r : Ec2Resource) : (ec2 r).targets = [r.schedule] := by
  simp [targets, record, Ec2Resource.record, Record.ofType, MachineRoles.fields]

@[simp]
theorem targets_emr (r : EmrCluster) : (emr r).targets = [r.schedule] := by
  have htask : Field.targets (EmrCluster.taskFields r.cluster) = [] := by
    unfold EmrCluster.taskFields
    split <;> simp
  simp [targets, record, EmrCluster.record, Record.ofType, MachineRoles.fields, htask]

theorem activity?_mapActivity (f : Activity → Activity) (o : Object) :
    (o.mapActivity f).activity? = o.activity?.map f := by
  cases o <;> rfl

/-- Activities that differ in nothing but in what they wait for differ in no other reference. -/
theorem targets_activity_subset {a b : Activity} {more : List ObjectId}
    (h : b.independent = a.independent) (hd : b.dependsOn ⊆ a.dependsOn ++ more) :
    (activity b).targets ⊆ (activity a).targets ++ more := by
  have hlinks : b.links = a.links := show b.independent.links = a.independent.links by rw [h]
  have hinputs : b.inputs = a.inputs := show b.independent.inputs = a.independent.inputs by rw [h]
  have houtputs : b.outputs = a.outputs := show b.independent.outputs = a.independent.outputs by rw [h]
  intro x hx
  rw [mem_targets_activity, hlinks, hinputs, houtputs] at hx
  rw [List.mem_append, mem_targets_activity]
  rcases hx with hx | hx | hx | hx
  · exact .inl (.inl hx)
  · exact .inl (.inr (.inl hx))
  · exact .inl (.inr (.inr (.inl hx)))
  · rcases List.mem_append.mp (hd hx) with hx | hx
    · exact .inl (.inr (.inr (.inr hx)))
    · exact .inr hx

theorem targets_mapActivity_subset {f : Activity → Activity} {o : Object} {more : List ObjectId}
    (h : ∀ a, o.activity? = some a → (f a).independent = a.independent)
    (hd : ∀ a, o.activity? = some a → (f a).dependsOn ⊆ a.dependsOn ++ more) :
    (o.mapActivity f).targets ⊆ o.targets ++ more := by
  cases o with
  | activity a => exact targets_activity_subset (h a rfl) (hd a rfl)
  | _ => exact List.subset_append_left _ _

end Object

/-! ### Graphs -/

namespace Graph

variable {g g' : Graph}

theorem objects_of_addAll {os : List Object} (h : g.addAll os = .ok g') :
    g'.objects = g.objects ++ os := by
  unfold addAll at h
  induction os generalizing g with
  | nil =>
      cases h
      exact (List.append_nil _).symm
  | cons o os ih =>
      rw [List.foldlM_cons, Outcome.bind_eq_ok_iff] at h
      obtain ⟨g₁, h₁, h⟩ := h
      rw [ih h, objects_of_add h₁, List.append_assoc, List.singleton_append]

/-- Only an id that is used already keeps an object out. -/
theorem error_of_add {o : Object} {e : Error} (h : g.add o = .error e) : e = .duplicate o.id := by
  unfold add at h
  split at h
  · cases h
    rfl
  · cases h

theorem error_of_addAll {os : List Object} {e : Error} (h : g.addAll os = .error e) :
    ∃ id, e = .duplicate id := by
  unfold addAll at h
  induction os generalizing g with
  | nil => cases h
  | cons o os ih =>
      rw [List.foldlM_cons, Outcome.bind_eq_error_iff] at h
      rcases h with h | ⟨g₁, _, h⟩
      · exact ⟨o.id, error_of_add h⟩
      · exact ih h

theorem unknownReference?_eq_none_iff {o : Object} :
    g.unknownReference? o.record = none ↔ o.targets ⊆ g.ids := by
  unfold unknownReference?
  rw [List.findSome?_eq_none_iff]
  constructor
  · intro h x hx
    obtain ⟨key, hmem⟩ := Field.mem_targets_iff.mp hx
    have hfield := h _ hmem
    simp only [ite_eq_left_iff, reduceCtorEq, imp_false, not_not] at hfield
    exact hfield
  · rintro h ⟨key, v⟩ hmem
    cases v with
    | text s => rfl
    | reference id => exact if_pos (h (Field.mem_targets_iff.mpr ⟨key, hmem⟩))

/-- A graph passes the check when each target is the id of an object. -/
theorem checkReferences_eq_ok_iff :
    g.checkReferences = .ok () ↔ ∀ o ∈ g.objects, o.targets ⊆ g.ids := by
  have hnone : g.records.findSome? g.unknownReference? = none ↔ ∀ o ∈ g.objects, o.targets ⊆ g.ids := by
    unfold records
    simp only [List.findSome?_map, List.findSome?_eq_none_iff, Function.comp_apply,
      unknownReference?_eq_none_iff]
  rw [← hnone]
  unfold checkReferences
  split
  · next e he => simp [he]
  · next he => simp [he]

/-! ### The order of activities -/

/-- The activity `x` ends before the activity `y` starts. -/
def RunsBefore (g : Graph) : ObjectId → ObjectId → Prop :=
  Relation.TransGen (Sequence.NeededBy Activity.id Activity.dependsOn g.activities)

theorem exists_waiting_of_runsBefore {y : ObjectId} (h : g.RunsBefore x y) :
    ∃ a ∈ g.activities, x ∈ a.dependsOn := by
  obtain ⟨_, ⟨a, ha, _, hx⟩, _⟩ := Relation.TransGen.head'_iff.mp h
  exact ⟨a, ha, hx⟩

theorem activityIds_sublist (os : List Object) :
    ((os.filterMap Object.activity?).map Activity.id).Sublist (os.map Object.id) := by
  induction os with
  | nil => exact List.Sublist.slnil
  | cons o os ih =>
      cases o with
      | activity a => exact ih.cons_cons _
      | _ => exact ih.cons _

theorem activityIds_subset : g.activities.map Activity.id ⊆ g.ids :=
    (activityIds_sublist g.objects).subset

theorem nodup_activityIds : (g.activities.map Activity.id).Nodup :=
  g.nodup_ids.sublist (activityIds_sublist g.objects)

end Graph

/-! ### Resources -/

/-- What the steps of a pipeline share. -/
inductive Resource where
  | ec2
  | emr
  | redshift
  deriving DecidableEq, Repr

namespace Object

/-- The resource that an object is. -/
def resource? : Object → Option Resource
  | .ec2 _ => some .ec2
  | .emr _ => some .emr
  | .redshift _ => some .redshift
  | _ => none

@[simp]
theorem resource?_activity (a : Activity) : (Object.activity a).resource? = none := rfl

@[simp]
theorem resource?_store (n : StoreNode) : (Object.store n).resource? = none := rfl

@[simp]
theorem resource?_table (n : TableNode) : (Object.table n).resource? = none := rfl

@[simp]
theorem resource?_query (n : QueryNode) : (Object.query n).resource? = none := rfl

@[simp]
theorem resource?_jdbc (d : JdbcDatabase) : (Object.jdbc d).resource? = none := rfl

@[simp]
theorem resource?_mapActivity (f : Activity → Activity) (o : Object) :
    (o.mapActivity f).resource? = o.resource? := by
  cases o <;> rfl

end Object

namespace Graph

variable {g g' : Graph} {r : Resource} {os : List Object}

/-- How many objects are a resource. -/
def stock (g : Graph) (r : Resource) : Nat := g.objects.countP (·.resource? = some r)

theorem stock_of_addAll (h : g'.objects = g.objects ++ os) :
    g'.stock r = g.stock r + os.countP (·.resource? = some r) := by
  unfold stock
  rw [h, List.countP_append]

/-- Objects that are no resources leave the stock as it is. -/
theorem stock_of_addAll_none (h : g'.objects = g.objects ++ os)
    (hos : ∀ o ∈ os, o.resource? = none) : g'.stock r = g.stock r := by
  rw [stock_of_addAll h, Nat.add_eq_left, List.countP_eq_zero]
  intro o ho
  simp [hos o ho]

theorem stock_mapActivities {f : Activity → Activity} (h : ∀ a, (f a).id = a.id) :
    (g.mapActivities f h).stock r = g.stock r := by
  simp [stock, mapActivities, List.countP_map, Function.comp_def]

end Graph

end EtlFlow.Workflow
