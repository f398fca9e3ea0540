import EtlFlow.Proofs.Files.Tree
import EtlFlow.Proofs.Step.Expansion
import EtlFlow.Proofs.Step.Staged
import EtlFlow.Proofs.Step.Variables
import EtlFlow.Proofs.Storage.Root
/-!
# The places of a step

Whatever its kind, a step names places of the object store in four ways only (`MadeBy`): by the URI
that its arguments give, right below its source directory under the name of a file, and right below
its data directory under a fixed name or under the name of an output (`expand_placed`).
-/

namespace EtlFlow

open Storage (Location)

/-! ### Locations -/

namespace Workflow

/-- The scripts of an activity in the object store. -/
def Activity.scripts (a : Activity) : List Location :=
  match a.work with
  | .shell c => c.script.toList
  | .sql c => c.script.toList
  | _ => []

/-- The locations that an object names. -/
def Object.locations : Object → List Location
  | defaults d => [d.logs]
  | ec2 r => [r.logs]
  | emr r => [r.logs]
  | store n => [n.path]
  | activity a => a.scripts
  | _ => []

@[simp]
theorem locations_schedule (s : Schedule) : (Object.schedule s).locations = [] := rfl

@[simp]
theorem locations_alarm (a : Alarm) : (Object.alarm a).locations = [] := rfl

@[simp]
theorem locations_defaults (d : Defaults) : (Object.defaults d).locations = [d.logs] := rfl

@[simp]
theorem locations_store (n : StoreNode) : (Object.store n).locations = [n.path] := rfl

@[simp]
theorem locations_query (n : QueryNode) : (Object.query n).locations = [] := rfl

@[simp]
theorem locations_jdbc (d : JdbcDatabase) : (Object.jdbc d).locations = [] := rfl

variable (a : Activity)

@[simp]
theorem locations_activity : (Object.activity a).locations = a.scripts := rfl

@[simp]
theorem scripts_withInputs (ids : List ObjectId) : (a.withInputs ids).scripts = a.scripts := rfl

@[simp]
theorem scripts_withOutput (id : ObjectId) : (a.withOutput id).scripts = a.scripts := rfl

@[simp]
theorem scripts_withOutputs (ids : List ObjectId) :
    (ids.foldl Activity.withOutput a).scripts = a.scripts := by
  rw [Activity.scripts, Step.work_withOutputs, Activity.scripts]

@[simp]
theorem scripts_addDependency (id : ObjectId) : (a.addDependency id).scripts = a.scripts := by
  unfold Activity.addDependency
  split <;> rfl

@[simp]
theorem scripts_addDependencies (ids : List ObjectId) :
    (a.addDependencies ids).scripts = a.scripts := by
  unfold Activity.addDependencies
  induction ids generalizing a with
  | nil => rfl
  | cons i is ih => rw [List.foldl_cons, ih, scripts_addDependency]

@[simp]
theorem scripts_setDependencies (ids : List ObjectId) :
    (a.setDependencies ids).scripts = a.scripts :=
  scripts_addDependencies a.independent ids

/-- What an activity waits for says nothing about locations. -/
theorem locations_mapActivity {f : Activity → Activity} (h : ∀ a, (f a).scripts = a.scripts)
    (o : Object) : (o.mapActivity f).locations = o.locations := by
  cases o with
  | activity a => exact h a
  | _ => rfl

end Workflow

namespace Step

open Files.Path (IsSingle)
open Outcome Workflow
open Yaml (Value Fields)

variable {k : Kind} {c : Context} {e : Expansion}

/-- The places of nodes in the object store. -/
def Nodes.locations (ns : Nodes) : List Location := ns.refs.filterMap (·.path)

/-- The locations that the objects of a step name. -/
def Expansion.locations (e : Expansion) : List Location := e.objects.flatMap Object.locations

@[simp]
theorem locations_chained (as : List Activity) :
    (chained as).locations = as.flatMap Activity.scripts := by
  rw [Expansion.locations, objects_chained, List.flatMap_map]
  fun_induction chain as with
  | case1 => rfl
  | case2 a => rfl
  | case3 a b as ih =>
    rw [List.flatMap_cons, ih, List.flatMap_cons, scripts_addDependency]
    rfl

@[simp]
theorem scripts_made {id : ObjectId} {r : Runner} (w : Work) :
    (c.made id w r).scripts = match w with
      | .shell c => c.script.toList
      | .sql c => c.script.toList
      | _ => [] := rfl

/-! ### Names of files -/

/-- The name of a file is a single name, and so leads down. -/
theorem isSingle_fileName {path n : String} (h : fileName path = .ok n) : IsSingle n := by
  have there := name_mem_steps_of_fileName h
  rw [Files.Path.steps, List.mem_append] at there
  have named : Files.Step.ofPart n = .name n := by
    rcases there with there | there
    · obtain ⟨part, -, hn⟩ := List.mem_map.mp there
      unfold Files.Step.ofPart at hn ⊢
      split at hn
      · cases hn
      · split at hn
        · cases hn
        · cases hn
          rw [if_neg ‹_›, if_neg ‹_›]
    · split at there
      · cases List.mem_singleton.mp there
      · cases there
  rw [IsSingle, Files.Path.walk_name (isName_fileName h), named]

/-! ### Places -/

/-- The ways in which a step of a kind comes by a location, where it makes the nodes of `output`. -/
inductive MadeBy (k : Kind) (c : Context) (output : Nodes) : Location → Prop
  /-- The arguments name it by a URI. -/
  | given {l : Location} : k = .extractS3 → l ∈ output.locations → l.IsPlain →
      MadeBy k c output l
  /-- It is a staged file. -/
  | file {n : String} : IsSingle n → MadeBy k c output (c.paths.source.joinFile n)
  /-- It is a staged directory. -/
  | directory {n : String} : IsSingle n → MadeBy k c output (c.paths.source.joinDirectory n)
  /-- It is a directory for data. -/
  | data {n : String} : IsSingle n ∨ n ∈ output.names →
      MadeBy k c output (c.paths.data.joinDirectory n)

/-- Every location that the objects name is one of those. -/
def Expansion.Placed (k : Kind) (c : Context) (e : Expansion) : Prop :=
  ∀ l ∈ e.locations, MadeBy k c e.output l

theorem isSingle_output : IsSingle "output" := by decide

theorem isSingle_intermediate : IsSingle "intermediate" := by decide

theorem isSingle_launcher : IsSingle "launcher.sh" := by decide

theorem placed_of_nil (h : e.locations = []) : e.Placed k c := by
  rw [Expansion.Placed, h]
  exact List.forall_mem_nil _

theorem placed_singleton {l : Location} (h : e.locations = [l]) (hl : MadeBy k c e.output l) :
    e.Placed k c := by
  rw [Expansion.Placed, h]
  exact List.forall_mem_singleton.mpr hl

theorem isPlain_location {a : StoreArguments} {l : Location} (h : a.location = .ok l) :
    l.IsPlain := by
  simp only [StoreArguments.location, bind_eq_ok_iff, mapError_eq_ok_iff] at h
  obtain ⟨-, -, place, hplace, h⟩ := h
  split at h
  · cases h
    exact Location.isPlain_directory (Location.isPlain_of_ofUri hplace).bucket place.key
  · split at h
    · cases h
    · cases h
      exact Location.isPlain_of_ofUri hplace

theorem content_placed {a : SqlArguments} {text : Option String} {script : Option Artifact}
    {output : Nodes} (h : a.content c = .ok (text, script)) :
    ∀ l ∈ (script.map (·.destination)).toList, MadeBy k c output l := by
  unfold SqlArguments.content at h
  split at h
  · cases h
    exact List.forall_mem_nil _
  · simp only [bind_eq_ok_iff, pure_eq_ok_iff] at h
    obtain ⟨_, -, n, hn, h⟩ := h
    cases h
    exact List.forall_mem_singleton.mpr (.file (isSingle_fileName hn))

/-- The scripts of a command are staged files, and so is its directory of scripts. -/
theorem parts_placed {a : TransformArguments} {parts : CommandParts} {output : Nodes}
    (h : a.parts c = .ok parts) :
    ∀ l ∈ parts.shell.script.toList ++ parts.directory.toList.map (·.path),
      MadeBy k c output l := by
  unfold TransformArguments.parts at h
  split at h
  · cases h
    exact List.forall_mem_nil _
  · simp only [bind_eq_ok_iff, pure_eq_ok_iff] at h
    obtain ⟨n, hn, rfl⟩ := h
    exact List.forall_mem_singleton.mpr (.file (isSingle_fileName hn))
  · simp only [directoryParts, guard_eq_ok_iff, bind_eq_ok_iff, pure_eq_ok_iff] at h
    obtain ⟨-, n, hn, rfl⟩ := h
    exact List.forall_mem_cons.mpr ⟨.file isSingle_launcher,
      List.forall_mem_singleton.mpr (.directory (isSingle_fileName hn))⟩

/-- The outputs of a command are named by its arguments. -/
theorem outputs_placed (a : TransformArguments) :
    ∀ n ∈ (a.outputNodes c).1, MadeBy k c (a.outputNodes c).2 n.path := by
  unfold TransformArguments.outputNodes
  split
  · exact List.forall_mem_nil _
  · split
    · exact List.forall_mem_singleton.mpr (.data (.inl isSingle_output))
    · rename_i names _
      dsimp only
      rw [List.map_map, List.forall_mem_map]
      intro n hn
      refine .data (.inr (Sorted.mem_names_ofEntries ?_))
      simpa using hn

theorem placed_made {a : TransformArguments} {parts : CommandParts} {given : List String}
    {r : Runner} (h : a.parts c = .ok parts) : (a.made c parts given r).Placed k c := by
  intro l hl
  have source : l ∈ parts.directory.toList.map (·.path) ∨ l ∈ (a.outputNodes c).1.map (·.path) ∨
      l ∈ parts.shell.script.toList := by
    simpa [Expansion.locations, TransformArguments.made, TransformArguments.run, eq_comm] using hl
  rcases source with directory | output | script
  · exact parts_placed h l (List.mem_append_right _ directory)
  · obtain ⟨n, hn, rfl⟩ := List.mem_map.mp output
    exact outputs_placed a n hn
  · exact parts_placed h l (List.mem_append_left _ script)

/-! ### All kinds -/

theorem Context.Runs.scripts_eq {ending : String} {a : Activity} (h : c.Runs ending a) :
    a.scripts = [] := by
  cases h <;> rfl

/-- Whatever its kind, a step names places in these ways only. -/
theorem expand_placed {entries : Value.Entries} (h : expand k entries c = .ok e) :
    e.Placed k c := by
  cases expand_makes h with
  | file hn => exact placed_singleton rfl (.file (isSingle_fileName hn))
  | place hl =>
    exact placed_singleton rfl (.given rfl List.mem_cons_self (isPlain_location hl))
  | rows _ _ hcopy hclean =>
    have places : ∀ l ∈ [c.paths.data.joinDirectory "intermediate",
        c.paths.data.joinDirectory "output"], MadeBy k c (.single (.ofStore c.output)) l :=
      List.forall_mem_cons.mpr ⟨.data (.inl isSingle_intermediate),
        List.forall_mem_singleton.mpr (.data (.inl isSingle_output))⟩
    intro l hl
    refine places l ?_
    simpa [Expansion.locations, hcopy, hclean, Context.output, Context.store] using hl
  | unload => exact placed_singleton rfl (.data (.inl isSingle_output))
  | streaming => exact placed_singleton rfl (.data (.inl isSingle_output))
  | load => exact placed_of_nil rfl
  | command hparts => exact placed_made hparts
  | statement _ hcontent =>
    intro l hl
    refine content_placed hcontent l ?_
    simpa [Expansion.locations] using hl
  | one _ hruns => exact placed_of_nil (by simp [Expansion.locations, hruns.scripts_eq])
  | @several _ _ as _ hruns =>
    refine placed_of_nil ?_
    rw [locations_chained, List.flatMap_eq_nil_iff]
    intro a ha
    obtain ⟨ending, hruns⟩ := exists_runs_of_mem hruns a ha
    exact hruns.scripts_eq

/-- Later steps see the places of objects. -/
theorem output_subset_locations {entries : Value.Entries} (h : expand k entries c = .ok e) :
    e.output.locations ⊆ e.locations := by
  intro l hl
  obtain ⟨n, hn, path⟩ := List.mem_filterMap.mp hl
  obtain ⟨o, ho, seen⟩ := (expand_contract h).output n hn
  refine List.mem_flatMap.mpr ⟨o, ho, ?_⟩
  cases o with
  | store m =>
    cases seen
    cases path
    exact List.mem_cons_self
  | table =>
    cases seen
    cases path
  | _ => cases seen

/-- What a step stages has single names. -/
theorem Stages.isSingle {items : List Staged} (h : Stages k items) :
    ∀ i ∈ items, IsSingle i.name :=
  h.forall_name isSingle_fileName isSingle_launcher

end Step

end EtlFlow
