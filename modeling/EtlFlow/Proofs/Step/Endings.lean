import EtlFlow.Proofs.Step.Contract
import EtlFlow.Proofs.Step.Objects
import EtlFlow.Proofs.Sorted
/-!
# The ids of a step's objects

Whatever its kind, the objects of a step have its own id with endings that the kind alone determines
(`Kind.expand_ids`), and in a step that runs a command the names of its outputs
(`transform_ids`).  The nodes that later steps can read have distinct ids in any case
(`expand_outputsApart`).
-/

namespace EtlFlow.Step

open Outcome Workflow
open Yaml (Value Fields)

variable {c : Context} {e : Expansion} {a : Activity} {ending : String}

/-! ### Activities -/

@[simp]
theorem id_withInputs (a : Activity) (ids : List ObjectId) : (a.withInputs ids).id = a.id := rfl

@[simp]
theorem id_withOutput (a : Activity) (id : ObjectId) : (a.withOutput id).id = a.id := rfl

@[simp]
theorem id_withOutputs (a : Activity) (ids : List ObjectId) :
    (ids.foldl Activity.withOutput a).id = a.id := by
  induction ids generalizing a with
  | nil => rfl
  | cons i is ih => exact ih (a.withOutput i)

theorem ids_chain (as : List Activity) : (chain as).map Activity.id = as.map Activity.id := by
  fun_induction chain as with
  | case1 => rfl
  | case2 a => rfl
  | case3 a b as ih =>
      rw [List.map_cons, ih, List.map_cons, List.map_cons, List.map_cons, Activity.id_addDependency]

/-! ### Endings -/

/-- The ids of the objects are the id of the step with the endings. -/
def Expansion.HasEndings (c : Context) (endings : List String) (e : Expansion) : Prop :=
  e.objects.map Object.id = endings.map c.sub

/-- What the objects of a step have behind its id, apart from steps that run commands. -/
def Kind.endings : Kind → List String
  | extractLocal | extractS3 => ["Output"]
  | extractRds | extractPostgres => ["Database", "SqlNode", "Intermediate", "Output", "Copy", ""]
  | extractRedshift => ["Table", "Output", ""]
  | emrStreaming => ["Output", ""]
  | loadRedshift => ["Table", ""]
  | loadReloadPk => ["Load", "Reload", "PrimaryKeyCheck"]
  | safeCreateLoad => ["CreateStaging", "Load", "Swap"]
  | _ => [""]

/-- What the nodes that a command writes have behind the id of its step. -/
def TransformArguments.outputEndings (a : TransformArguments) : List String :=
  if a.noOutput then []
  else
    match a.outputs with
    | none => ["Output"]
    | some names => names.map ("_" ++ ·)

/-- What the node of a script directory has behind the id of its step. -/
def TransformArguments.directoryEndings (a : TransformArguments) : List String :=
  match a.command, a.script with
  | none, none => ["ScriptDirectory"]
  | _, _ => []

/-- What the objects of a step that runs a command have behind its id. -/
def TransformArguments.endings (a : TransformArguments) : List String :=
  a.directoryEndings ++ a.outputEndings ++ [""]

theorem hasEndings_chained {as : List Activity} {endings : List String}
    (h : as.map Activity.id = endings.map c.sub) : (chained as).HasEndings c endings := by
  unfold Expansion.HasEndings
  rw [objects_chained, List.map_map, ← h, ← ids_chain as]
  rfl

theorem Kind.endings_of_querying : ∀ k ∈ Kind.querying,
    k.endings = ["Database", "SqlNode", "Intermediate", "Output", "Copy", ""] := by decide

theorem Kind.endings_of_running : ∀ k ∈ Kind.running, k.endings = [""] := by decide

theorem Kind.endings_of_chaining : ∀ p ∈ Kind.chaining, p.1.endings = p.2 := by decide

/-- The endings of the ids are those of the kind, except for commands. -/
theorem Makes.hasEndings {k : Kind} (h : Makes c k e) (hk : k ≠ .transform) :
    e.HasEndings c k.endings := by
  cases h with
  | @rows k s host name table query copy clean r hquerying _ hcopy hclean =>
    have hid := (targets_database s (c.sub "Database") host name).2
    subst hcopy hclean
    simp [Expansion.HasEndings, Kind.endings_of_querying k hquerying, Object.id, hid,
      Context.output, Context.store, Context.made]
  | command => exact absurd rfl hk
  | one hk hruns =>
    rw [Kind.endings_of_running k hk]
    exact congrArg (fun id => [id]) hruns.id_eq
  | several hk hruns =>
    rw [Kind.endings_of_chaining _ hk]
    exact hasEndings_chained (ids_of_runs hruns)
  | _ => rfl

/-- The endings of the ids are those of the kind, except for commands. -/
theorem Kind.expand_ids {k : Kind} {entries : Value.Entries} (hk : k ≠ .transform)
    (h : k.expand entries c = .ok e) : e.HasEndings c k.endings :=
  (Kind.expand_makes h).hasEndings hk

/-! ### Commands -/

theorem ids_directory {s : TransformArguments} {parts : CommandParts} (h : s.parts c = .ok parts) :
    parts.directory.toList.map StoreNode.id = s.directoryEndings.map c.sub := by
  unfold TransformArguments.parts at h
  unfold TransformArguments.directoryEndings
  split at h
  · next hcommand =>
      cases h
      rw [hcommand]
      rfl
  · next hcommand hscript =>
      simp only [bind_eq_ok_iff, pure_eq_ok_iff] at h
      obtain ⟨_, _, rfl⟩ := h
      rw [hcommand, hscript]
      rfl
  · next hcommand hscript =>
      simp only [directoryParts, guard_eq_ok_iff, bind_eq_ok_iff, pure_eq_ok_iff] at h
      obtain ⟨_, _, _, rfl⟩ := h
      rw [hcommand, hscript]
      rfl

theorem ids_outputNodes (s : TransformArguments) (c : Context) :
    (s.outputNodes c).1.map StoreNode.id = s.outputEndings.map c.sub := by
  unfold TransformArguments.outputNodes TransformArguments.outputEndings
  split
  · rfl
  · cases s.outputs with
    | none => rfl
    | some names =>
        simp only [List.map_map]
        rfl

theorem id_run (s : TransformArguments) (c : Context) (parts : CommandParts) (given : List String)
    (r : Runner) : (s.run c parts given r).id = c.sub "" := by
  rw [TransformArguments.run, id_withOutputs]
  rfl

theorem hasEndings_made {s : TransformArguments} {parts : CommandParts} {given : List String}
    {r : Runner} (h : s.parts c = .ok parts) : (s.made c parts given r).HasEndings c s.endings := by
  unfold Expansion.HasEndings TransformArguments.endings TransformArguments.made
  rw [List.map_append, ids_map_store, List.map_append, ids_directory h, ids_outputNodes,
    List.map_append, List.map_append]
  exact congrArg _ (congrArg (fun id => [id]) (id_run s c parts given r))

theorem transform_ids {s : TransformArguments} (h : transform c s = .ok e) :
    e.HasEndings c s.endings := by
  obtain ⟨parts, given, r, hparts, -, rfl⟩ := transform_eq_ok h
  exact hasEndings_made hparts

/-- The ids are made from the id of the step. -/
theorem Makes.exists_endings {k : Kind} (h : Makes c k e) : ∃ endings, e.HasEndings c endings := by
  by_cases hk : k = .transform
  · subst hk
    cases h with
    | command hparts => exact ⟨_, hasEndings_made hparts⟩
    | rows hk => exact absurd hk (by decide)
    | one hk => exact absurd hk (by decide)
    | several hk => exact absurd hk (by simp [Kind.chaining])
  · exact ⟨_, h.hasEndings hk⟩

/-! ### Outputs -/

theorem sub_injective : Function.Injective c.sub := fun _ _ h => (String.append_right_inj _).mp h

@[simp]
theorem ids_none : Nodes.none.ids = [] := rfl

@[simp]
theorem ids_single (n : NodeRef) : (Nodes.single n).ids = [n.id] := rfl

/-- Nodes whose ids tell their names are distinct among sorted entries. -/
theorem nodup_ids_ofEntries {es : List (String × NodeRef)}
    (h : ∀ entry ∈ es, entry.2.id = c.sub ("_" ++ entry.1)) :
    (Nodes.named (Sorted.ofEntries es)).ids.Nodup := by
  have hids : (Nodes.named (Sorted.ofEntries es)).ids =
      ((Sorted.ofEntries es).map Prod.fst).map fun n => c.sub ("_" ++ n) := by
    simp only [Nodes.ids, Nodes.refs, List.map_map]
    exact List.map_congr_left fun entry hentry => h entry (Sorted.mem_ofEntries hentry)
  rw [hids]
  refine (Sorted.nodup_names_ofEntries es).map fun n n' hn => ?_
  exact (String.append_right_inj "_").mp (sub_injective hn)

theorem nodup_outputNodes (s : TransformArguments) (c : Context) :
    (s.outputNodes c).2.ids.Nodup := by
  unfold TransformArguments.outputNodes
  split
  · exact List.nodup_nil
  · split
    · exact List.nodup_singleton _
    · apply nodup_ids_ofEntries (c := c)
      simp [Context.store, NodeRef.ofStore]

/-- The nodes that later steps can read have distinct ids. -/
theorem expand_outputsApart {k : Kind} {entries : Value.Entries} (h : expand k entries c = .ok e) :
    e.output.ids.Nodup := by
  cases expand_makes h with
  | @command s => exact nodup_outputNodes s c
  | _ => simp

end EtlFlow.Step
