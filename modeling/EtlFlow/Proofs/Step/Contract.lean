import EtlFlow.Proofs.Step.Objects
import EtlFlow.Proofs.Workflow.References
/-!
# What steps expand to

Whatever its kind, a step expands to objects that refer only to earlier ones of them and to what the
step is given (`Makes.sound`): its activities wait for earlier ones of its own only, and the
nodes that later steps can read are among its objects.
-/

namespace EtlFlow.Step

open Outcome Workflow
open Sequence (Founded)
open Yaml (Value Fields)

/-! ### The contract -/

/-- The ids of the objects that a step is given. -/
def Context.supplied (c : Context) : List ObjectId :=
  c.schedule :: ((c.runner.bind Runner.resource?).toList ++ c.alarm.toList ++
    c.warehouse.toList ++ c.input.ids)

/-- An activity that waits for nothing and refers only to what the step is given. -/
structure Context.Bare (c : Context) (a : Activity) : Prop where
  targets : (Object.activity a).targets ⊆ c.supplied
  dependsOn : a.dependsOn = []

/-- The activities that a step expands to. -/
def Expansion.work (e : Expansion) : List Activity := e.objects.filterMap Object.activity?

/-- An expansion that notes its activities and whose objects refer to earlier ones and to what the step
is given. -/
structure Expansion.Sound (c : Context) (e : Expansion) : Prop where
  activities : e.activities = e.work.map Activity.id
  objects : Founded Object.id Object.targets c.supplied e.objects
  work : Founded Activity.id Activity.dependsOn [] e.work
  output : e.output.ids ⊆ e.objects.map Object.id

variable {c : Context} {e : Expansion} {a b : Activity} {known ids : List ObjectId} {x : ObjectId}
  {ending : String}

/-! ### References of activities -/

theorem targets_withInputs (h : (Object.activity a).targets ⊆ known) (hids : ids ⊆ known) :
    (Object.activity (a.withInputs ids)).targets ⊆ known := by
  intro x hx
  rw [Object.mem_targets_activity] at hx
  rcases hx with hx | hx | hx
  · exact h (Object.mem_targets_activity.mpr (.inl hx))
  · rcases Sequence.mem_addAll.mp hx with hx | hx
    · exact h (Object.mem_targets_activity.mpr (.inr (.inl hx)))
    · exact hids hx
  · exact h (Object.mem_targets_activity.mpr (.inr (.inr hx)))

theorem targets_withOutput (h : (Object.activity a).targets ⊆ known) (hx : x ∈ known) :
    (Object.activity (a.withOutput x)).targets ⊆ known := by
  intro y hy
  rw [Object.mem_targets_activity] at hy
  rcases hy with hy | hy | hy | hy
  · exact h (Object.mem_targets_activity.mpr (.inl hy))
  · exact h (Object.mem_targets_activity.mpr (.inr (.inl hy)))
  · rcases Sequence.mem_addNew.mp hy with hy | rfl
    · exact h (Object.mem_targets_activity.mpr (.inr (.inr (.inl hy))))
    · exact hx
  · exact h (Object.mem_targets_activity.mpr (.inr (.inr (.inr hy))))

theorem targets_withOutputs (h : (Object.activity a).targets ⊆ known) (hids : ids ⊆ known) :
    (Object.activity (ids.foldl Activity.withOutput a)).targets ⊆ known := by
  induction ids generalizing a with
  | nil => exact h
  | cons i is ih =>
      rw [List.cons_subset] at hids
      exact ih (targets_withOutput h hids.1) hids.2

theorem targets_addDependency (h : (Object.activity a).targets ⊆ known) (hx : x ∈ known) :
    (Object.activity (a.addDependency x)).targets ⊆ known := by
  have hsub : (Object.activity (a.addDependencies [x])).targets ⊆ (Object.activity a).targets ++ [x] :=
    Object.targets_activity_subset (Activity.independent_addDependencies a [x])
      (Activity.dependsOn_addDependencies_subset a [x])
  refine List.Subset.trans hsub (List.append_subset.mpr ⟨h, ?_⟩)
  exact Sequence.singleton_subset hx

theorem dependsOn_withOutputs : (ids.foldl Activity.withOutput a).dependsOn = a.dependsOn := by
  induction ids generalizing a with
  | nil => rfl
  | cons i is ih => exact ih

theorem Context.Bare.withInputs (h : c.Bare a) (hids : ids ⊆ c.supplied) :
    c.Bare (a.withInputs ids) :=
  ⟨targets_withInputs h.targets hids, h.dependsOn⟩

theorem Context.Bare.dependsOn_subset (h : c.Bare a) : a.dependsOn ⊆ known := by
  rw [h.dependsOn]
  exact List.nil_subset _

/-! ### What a step is given -/

theorem input_subset_supplied : c.input.ids ⊆ c.supplied := by
  intro x hx
  exact List.mem_cons_of_mem _ (List.mem_append_right _ hx)

theorem schedule_mem_supplied : c.schedule ∈ c.supplied := List.mem_cons_self

theorem warehouse_mem_supplied (h : c.warehouse = some x) : x ∈ c.supplied := by
  simp [Context.supplied, h]

theorem bare_made {id : ObjectId} {work : Work} {r : Runner} (hr : c.runner = some r)
    (hwork : work.database?.toList ⊆ c.supplied) : c.Bare (c.made id work r) := by
  refine ⟨fun x hx => ?_, rfl⟩
  rw [Object.mem_targets_activity] at hx
  simp only [Activity.links, Context.made, List.mem_cons, List.mem_append, List.not_mem_nil,
    or_false] at hx
  rcases hx with rfl | (hx | hx) | hx
  · exact schedule_mem_supplied
  · simp [Context.supplied, hr, hx]
  · simp [Context.supplied, hx]
  · exact hwork hx

theorem Context.Runs.bare (h : c.Runs ending a) : c.Bare a := by
  cases h with
  | job hr => exact (bare_made hr (List.nil_subset _)).withInputs input_subset_supplied
  | executor hr hids =>
    exact (bare_made hr (List.nil_subset _)).withInputs
      (List.Subset.trans hids input_subset_supplied)

/-- An activity that reads and makes data which is known by then. -/
theorem targets_making {id : ObjectId} {work : Work} {r : Runner} (hr : c.runner = some r)
    (hwork : work.database? = none) (hknown : c.supplied ⊆ known) (hids : ids ⊆ known)
    (hx : x ∈ known) :
    (Object.activity (((c.made id work r).withInputs ids).withOutput x)).targets ⊆ known := by
  have hbare : c.Bare (c.made id work r) := bare_made hr (by simp [hwork])
  exact targets_withOutput (targets_withInputs (List.Subset.trans hbare.targets hknown) hids) hx

/-! ### Data and activities -/

section

variable (nodes : List Object) (works : List Activity) {output : Nodes} {artifacts : List Artifact}

/-- Data, and behind it activities that refer to nothing that comes later. -/
theorem sound_of_founded (hdata : ∀ o ∈ nodes, o.activity? = none)
    (hnodes : Founded Object.id Object.targets c.supplied nodes)
    (hworks : Founded Object.id Object.targets (nodes.map Object.id ++ c.supplied)
      (works.map Object.activity))
    (hwaits : Founded Activity.id Activity.dependsOn [] works)
    (houtput : output.ids ⊆ nodes.map Object.id) :
    Expansion.Sound c
      { objects := nodes ++ works.map .activity, activities := works.map Activity.id, output,
        artifacts } := by
  have hwork : (nodes ++ works.map Object.activity).filterMap Object.activity? = works := by
    rw [List.filterMap_append, List.filterMap_eq_nil_iff.mpr hdata, List.filterMap_map]
    exact List.filterMap_some
  refine ⟨?_, Sequence.founded_append.mpr ⟨hnodes, hworks⟩, ?_, fun x hx => ?_⟩
  · rw [Expansion.work, hwork]
  · rw [Expansion.work, hwork]
    exact hwaits
  · rw [List.map_append]
    exact List.mem_append_left _ (houtput hx)

/-- Data, and behind it an activity that waits for nothing. -/
theorem sound_of_activity (hdata : ∀ o ∈ nodes, o.activity? = none)
    (hnodes : Founded Object.id Object.targets c.supplied nodes)
    (htargets : (Object.activity a).targets ⊆ nodes.map Object.id ++ c.supplied)
    (hwaits : a.dependsOn = []) (houtput : output.ids ⊆ nodes.map Object.id) :
    Expansion.Sound c
      { objects := nodes ++ [.activity a], activities := [a.id], output, artifacts } := by
  have hnothing : a.dependsOn ⊆ [] := List.subset_nil.mpr hwaits
  exact sound_of_founded nodes [a] hdata hnodes ⟨htargets, trivial⟩ ⟨hnothing, trivial⟩ houtput

/-- Data that an activity makes, from other data or from what the step is given. -/
theorem sound_of_making {id : ObjectId} {work : Work} {r : Runner} (hr : c.runner = some r)
    (hwork : work.database? = none) (hdata : ∀ o ∈ nodes, o.activity? = none)
    (hnodes : Founded Object.id Object.targets c.supplied nodes)
    (hids : ids ⊆ nodes.map Object.id ++ c.supplied) (hx : x ∈ nodes.map Object.id)
    (houtput : output.ids = [x]) :
    Expansion.Sound c
      { objects := nodes ++ [.activity (((c.made id work r).withInputs ids).withOutput x)],
        activities := [id], output, artifacts } :=
  sound_of_activity nodes hdata hnodes
    (targets_making hr hwork (List.subset_append_right _ _) hids (List.mem_append_left _ hx)) rfl
    (houtput ▸ Sequence.singleton_subset hx)

theorem Context.Bare.sound (h : c.Bare a) :
    Expansion.Sound c { objects := [.activity a], activities := [a.id], artifacts } :=
  sound_of_activity [] (List.forall_mem_nil _) trivial h.targets h.dependsOn (List.nil_subset _)

end

/-! ### Activities one after the other -/

/-- In a chain each activity refers to the one before it, which is known by then. -/
theorem founded_chain {as : List Activity} (known waits : List ObjectId)
    (htargets : ∀ a ∈ as, (Object.activity a).targets ⊆ known)
    (hwaits : ∀ a ∈ as, a.dependsOn ⊆ waits) :
    Founded Object.id Object.targets known ((chain as).map Object.activity) ∧
      Founded Activity.id Activity.dependsOn waits (chain as) := by
  fun_induction chain as generalizing known waits with
  | case1 => exact ⟨trivial, trivial⟩
  | case2 a => exact ⟨⟨htargets a List.mem_cons_self, trivial⟩, hwaits a List.mem_cons_self, trivial⟩
  | case3 a b as ih =>
      have htargets' : ∀ x ∈ b.addDependency a.id :: as, (Object.activity x).targets ⊆ a.id :: known := by
        intro x hx
        rcases List.mem_cons.mp hx with rfl | hx
        · apply targets_addDependency _ List.mem_cons_self
          have hb := htargets b (List.mem_cons_of_mem _ List.mem_cons_self)
          exact fun y hy => List.mem_cons_of_mem _ (hb hy)
        · have hx := htargets x (List.mem_cons_of_mem _ (List.mem_cons_of_mem _ hx))
          exact fun y hy => List.mem_cons_of_mem _ (hx hy)
      have hwaits' : ∀ x ∈ b.addDependency a.id :: as, x.dependsOn ⊆ a.id :: waits := by
        intro x hx y hy
        rcases List.mem_cons.mp hx with rfl | hx
        · rcases Activity.mem_addDependency.mp hy with hy | ⟨rfl, _⟩
          · exact List.mem_cons_of_mem _ (hwaits b (List.mem_cons_of_mem _ List.mem_cons_self) hy)
          · exact List.mem_cons_self
        · exact List.mem_cons_of_mem _ (hwaits x (List.mem_cons_of_mem _ (List.mem_cons_of_mem _ hx)) hy)
      obtain ⟨hobjects, hwork⟩ := ih _ _ htargets' hwaits'
      exact ⟨⟨htargets a List.mem_cons_self, hobjects⟩, hwaits a List.mem_cons_self, hwork⟩

theorem sound_chained {as : List Activity} (h : ∀ a ∈ as, c.Bare a) : (chained as).Sound c := by
  obtain ⟨hworks, hwaits⟩ := founded_chain c.supplied []
    (fun a ha => (h a ha).targets) fun a ha => (h a ha).dependsOn_subset
  rw [chained_eq]
  exact sound_of_founded [] (chain as) (List.forall_mem_nil _) trivial hworks hwaits
    (List.nil_subset _)

/-! ### Commands -/

/-- Nodes of the object store refer only to the schedule. -/
theorem founded_stores {nodes : List StoreNode} (h : ∀ n ∈ nodes, n.schedule = c.schedule)
    (hknown : c.supplied ⊆ known) :
    Founded Object.id Object.targets known (nodes.map Object.store) := by
  induction nodes generalizing known with
  | nil => trivial
  | cons n ns ih =>
      rw [List.map_cons, Sequence.founded_cons, Object.targets_store, h n List.mem_cons_self]
      constructor
      · exact Sequence.singleton_subset (hknown schedule_mem_supplied)
      · refine ih (fun m hm => h m (List.mem_cons_of_mem _ hm)) ?_
        exact fun x hx => List.mem_cons_of_mem _ (hknown hx)

theorem schedule_of_directoryParts {inputs : Nat} {path script : String} {parts : CommandParts}
    (h : directoryParts c inputs path script = .ok parts) :
    ∀ n ∈ parts.directory, n.schedule = c.schedule := by
  simp only [directoryParts, guard_eq_ok_iff, bind_eq_ok_iff, pure_eq_ok_iff] at h
  obtain ⟨_, _, _, rfl⟩ := h
  intro n hn
  cases hn
  rfl

theorem schedule_of_parts {s : TransformArguments} {parts : CommandParts}
    (h : s.parts c = .ok parts) :
    ∀ n ∈ parts.directory, n.schedule = c.schedule := by
  unfold TransformArguments.parts at h
  split at h
  · cases h
    rintro n ⟨⟩
  · simp only [bind_eq_ok_iff, pure_eq_ok_iff] at h
    obtain ⟨_, _, rfl⟩ := h
    rintro n ⟨⟩
  · exact schedule_of_directoryParts h

theorem outputNodes_spec (s : TransformArguments) (c : Context) :
    (∀ n ∈ (s.outputNodes c).1, n.schedule = c.schedule) ∧
      (s.outputNodes c).2.ids ⊆ (s.outputNodes c).1.map StoreNode.id := by
  unfold TransformArguments.outputNodes
  split
  · exact ⟨fun n hn => absurd hn List.not_mem_nil, List.nil_subset _⟩
  · split
    · constructor
      · intro n hn
        rw [List.mem_singleton.mp hn]
        rfl
      · exact List.Subset.refl _
    · next names _ =>
        constructor
        · intro n hn
          simp only [List.map_map, List.mem_map] at hn
          obtain ⟨_, _, rfl⟩ := hn
          rfl
        · intro x hx
          simp only [Nodes.ids, Nodes.refs, List.map_map, List.mem_map] at hx
          obtain ⟨entry, hentry, rfl⟩ := hx
          obtain ⟨pair, hpair, rfl⟩ := List.mem_map.mp (Sorted.mem_ofEntries hentry)
          exact List.mem_map_of_mem (List.mem_map_of_mem (List.mem_map_of_mem hpair))

theorem ids_map_store (nodes : List StoreNode) :
    (nodes.map Object.store).map Object.id = nodes.map StoreNode.id := List.map_map

theorem inputs_subset_input (s : TransformArguments) : (s.inputs c).map (·.id) ⊆ c.input.ids := by
  unfold TransformArguments.inputs
  split
  · exact List.nil_subset _
  · exact List.Subset.refl _

theorem sound_made {s : TransformArguments} {parts : CommandParts} {given : List String} {r : Runner}
    (hparts : s.parts c = .ok parts) (hr : c.runner = some r) :
    (s.made c parts given r).Sound c := by
  obtain ⟨hschedule, houtput⟩ := outputNodes_spec s c
  apply sound_of_activity
  · rw [List.forall_mem_map]
    exact fun _ _ => rfl
  · refine founded_stores (fun n hn => ?_) (List.Subset.refl _)
    rcases List.mem_append.mp hn with hn | hn
    · exact schedule_of_parts hparts n (Option.mem_toList.mp hn)
    · exact hschedule n hn
  · rw [ids_map_store, List.map_append]
    apply targets_withOutputs
    · apply targets_withInputs
      · exact List.Subset.trans (bare_made hr (List.nil_subset _)).targets
          (List.subset_append_right _ _)
      · refine List.append_subset.mpr ⟨fun x hx => ?_, fun x hx => ?_⟩
        · exact List.mem_append_right _ (input_subset_supplied (inputs_subset_input s hx))
        · exact List.mem_append_left _ (List.mem_append_left _ hx)
    · exact fun x hx => List.mem_append_left _ (List.mem_append_right _ hx)
  · rw [TransformArguments.run, dependsOn_withOutputs]
    rfl
  · rw [ids_map_store, List.map_append]
    exact fun x hx => List.mem_append_right _ (houtput hx)

/-! ### All kinds -/

theorem targets_database (s : DatabaseSystem) (id : ObjectId) (host : Settings.Host)
    (name : String) :
    (Object.jdbc (s.database id host name)).targets = [] ∧ (s.database id host name).id = id := by
  cases s with
  | mysql => exact ⟨Object.targets_jdbc _, rfl⟩
  | postgres => exact ⟨Object.targets_jdbc _, rfl⟩

/-- A single node that a step makes. -/
theorem sound_store {n : StoreNode} {artifacts : List Artifact} (h : n.schedule = c.schedule) :
    Expansion.Sound c
      { objects := [.store n], output := .single (.ofStore n), artifacts } :=
  sound_of_founded [.store n] [] (List.forall_mem_singleton.mpr rfl)
    ⟨by simp [h, schedule_mem_supplied], trivial⟩ trivial trivial (List.Subset.refl _)

/-- Rows that are copied and then cleaned. -/
theorem sound_rows (rows : QueryNode) (raw : StoreNode) {s : DatabaseSystem} {host : Settings.Host}
    {name : String} {copy clean : Activity} {r : Runner} (hr : c.runner = some r)
    (hrows : rows.schedule = c.schedule) (hdatabase : rows.database = c.sub "Database")
    (hraw : raw.schedule = c.schedule)
    (hcopy : copy = ((c.made (c.sub "Copy") .copy r).withInputs [rows.id]).withOutput raw.id)
    (hclean : clean = (((c.made (c.sub "") (.shell { command := some cleanUp }) r).withInputs
      [raw.id]).withOutput c.output.id).addDependency copy.id) :
    Expansion.Sound c
      { objects := [.jdbc (s.database (c.sub "Database") host name), .query rows, .store raw,
          .store c.output, .activity copy, .activity clean]
        activities := [copy.id, clean.id]
        output := .single (.ofStore c.output) } := by
  obtain ⟨htargets, hid⟩ := targets_database s (c.sub "Database") host name
  have hcopyWaits : copy.dependsOn = [] := by rw [hcopy]; rfl
  apply sound_of_founded [_, _, _, _] [_, _]
  · simp [Object.activity?]
  · simp [htargets, Object.id, hid, hrows, hdatabase, hraw, Context.output, Context.store,
      schedule_mem_supplied]
  · refine ⟨?_, ?_, trivial⟩
    · rw [hcopy]
      exact targets_making hr rfl (List.subset_append_right _ _) (by simp [Object.id])
        (by simp [Object.id])
    · rw [hclean]
      refine targets_addDependency (targets_making hr rfl ?_ ?_ ?_) List.mem_cons_self
      · exact List.subset_cons_of_subset _ (List.subset_append_right _ _)
      · simp [Object.id]
      · simp [Object.id]
  · refine ⟨List.subset_nil.mpr hcopyWaits, fun x hx => ?_, trivial⟩
    rw [hclean, Activity.mem_addDependency] at hx
    rcases hx with hx | ⟨rfl, _⟩
    · cases hx
    · exact List.mem_cons_self
  · simp [Nodes.ids, Nodes.refs, NodeRef.ofStore, Object.id]

/-- Whatever a step makes keeps the contract. -/
theorem Makes.sound {k : Kind} (h : Makes c k e) : e.Sound c := by
  have hschedule := schedule_mem_supplied (c := c)
  cases h with
  | file => exact sound_store rfl
  | place => exact sound_store rfl
  | rows _ hr hcopy hclean =>
    exact sound_rows ⟨_, _, _, _, _⟩ (c.store _ _) hr rfl rfl rfl hcopy (hcopy ▸ hclean)
  | unload hw hr =>
    have hwarehouse := warehouse_mem_supplied hw
    exact sound_of_making [_, _] hr rfl (by simp [Object.activity?])
      (by simp [Context.output, Context.store, *]) (by simp [Object.id])
      (by simp [Object.id, Context.output, Context.store]) rfl
  | load hw hinput hr =>
    have hwarehouse := warehouse_mem_supplied hw
    have hgiven := input_subset_supplied hinput
    exact sound_of_making [_] hr rfl (by simp [Object.activity?]) (by simp [*])
      (by simp [*]) (by simp [Object.id]) rfl
  | streaming _ _ hr =>
    exact sound_of_making [_] hr rfl (by simp [Object.activity?])
      (by simp [Context.output, Context.store, *])
      (List.subset_append_of_subset_right _ input_subset_supplied)
      (by simp [Object.id, Context.output, Context.store]) rfl
  | command hparts hr => exact sound_made hparts hr
  | statement hw _ hr =>
    refine Context.Bare.sound (bare_made hr ?_)
    exact Sequence.singleton_subset (warehouse_mem_supplied hw)
  | one _ hruns => exact hruns.bare.sound
  | several _ hruns =>
    refine sound_chained fun a ha => ?_
    obtain ⟨ending, hruns⟩ := exists_runs_of_mem hruns a ha
    exact hruns.bare

theorem expand_sound {k : Kind} {entries : Value.Entries} (h : expand k entries c = .ok e) :
    e.Sound c := (expand_makes h).sound

end EtlFlow.Step
