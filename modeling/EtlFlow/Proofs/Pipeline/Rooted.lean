import EtlFlow.Pipeline.Activation
import EtlFlow.Proofs.Pipeline.Staged
import EtlFlow.Proofs.Step.Places
import EtlFlow.Proofs.Time.Instant
/-!
# The places of a pipeline

Every location that a compiled pipeline names lies in the bucket of the settings under a key that is
made from names, or it is given by a URI as the data of a step (`Explained`).  Each change of a build
keeps this (`Placed.change`), and so a pipeline has it (`explained_compileDefinition`).  The names are
the base directory, the directory for the logs of checks, the name of the pipeline, the ids of the
steps and the names of their outputs; the rest of a key leads down.

A local store keeps an object of a compiled pipeline strictly below its root, wherever that is,
exactly when the steps of the bucket and of the key stay below their start.  In a bucket of a single
name this is so for every place that is made from names that do not go up (`localPath_isBelow`).  A
name that goes up can lead out of the root (`not_localPath_isBelow`).
-/

namespace EtlFlow.Pipeline

open Outcome
open Relation (ReflTransGen)
open Step (Machine Nodes)
open Storage (Location localPath)
open Files (StaysBelow Tree)
open Files.Path (IsSingle)

/-! ### Names and given locations -/

namespace CompiledStep

/-- The names in the places of a step: its id, and the names of its outputs. -/
def names (s : CompiledStep) : List String := s.id :: s.output.names

/-- The locations of the nodes of a step. -/
def locations (s : CompiledStep) : List Location := s.input.locations ++ s.output.locations

/-- The locations that a step gives by a URI: the data that it brings in from the object store, and
the path that it reads. -/
def given (s : CompiledStep) : List Location :=
  (if s.kind = .extractS3 then s.output.locations else []) ++
    (s.input.refs.filter (·.id = s.id ++ "InputPath")).filterMap (·.path)

end CompiledStep

/-- The location is made from names, those of the steps included, or given by one of the steps. -/
def Explained (bucket : String) (names : List String) (steps : List CompiledStep) (l : Location) :
    Prop :=
  l.ComposedOf bucket (names ++ steps.flatMap CompiledStep.names) ∨
    l ∈ steps.flatMap CompiledStep.given ∧ l.IsPlain

variable {bucket : String} {names : List String} {steps more : List CompiledStep} {l : Location}

theorem subset_names_append (names : List String) (steps more : List CompiledStep) :
    names ++ steps.flatMap CompiledStep.names ⊆
      names ++ (steps ++ more).flatMap CompiledStep.names := by
  rw [List.flatMap_append, ← List.append_assoc]
  exact List.subset_append_left _ _

theorem Explained.append (h : Explained bucket names steps l) (more : List CompiledStep) :
    Explained bucket names (steps ++ more) l := by
  rcases h with composed | ⟨given, plain⟩
  · exact .inl (composed.mono (subset_names_append names steps more))
  · refine .inr ⟨?_, plain⟩
    rw [List.flatMap_append]
    exact List.mem_append_left _ given

/-- All directories are made from names. -/
structure Paths.ComposedOf (bucket : String) (names : List String) (p : Paths) : Prop where
  source : p.source.ComposedOf bucket names
  data : p.data.ComposedOf bucket names
  logs : p.logs.ComposedOf bucket names
  checkLogs : p.checkLogs.ComposedOf bucket names

/-! ### Builds -/

namespace Build

variable {p : Plan} {b b' b₁ b₂ : Build} {m : Machine} {s : PlannedStep} {type : Step.StepType}

/-- Every location of a build is explained, and its artifacts go to places made from names. -/
structure Placed (bucket : String) (names : List String) (b : Build) : Prop where
  objects : ∀ o ∈ b.graph.objects, ∀ l ∈ o.locations, Explained bucket names b.steps l
  artifacts : ∀ a ∈ b.artifacts,
    a.destination.ComposedOf bucket (names ++ b.steps.flatMap CompiledStep.names)
  nodes : ∀ q ∈ b.nodes, ∀ l, q.2.path = some l → Explained bucket names b.steps l
  lastOutput : ∀ l ∈ b.lastOutput.locations, Explained bucket names b.steps l
  steps : ∀ s ∈ b.steps, ∀ l ∈ s.locations, Explained bucket names b.steps l

/-- Objects with explained locations are added to a build. -/
theorem Placed.addObject (hb : Placed bucket names b) {o : Workflow.Object} {g : Workflow.Graph}
    (hg : b.graph.add o = .ok g) (ho : ∀ l ∈ o.locations, l.ComposedOf bucket names) :
    Placed bucket names { b with graph := g } where
  objects := by
    rw [Workflow.Graph.objects_of_add hg, List.forall_mem_append, List.forall_mem_singleton]
    exact ⟨hb.objects, fun l hl => .inl ((ho l hl).mono (List.subset_append_left _ _))⟩
  artifacts := hb.artifacts
  nodes := hb.nodes
  lastOutput := hb.lastOutput
  steps := hb.steps

theorem logs_of_machineRoles {r : Workflow.MachineRoles} (h : p.machineRoles = .ok r) :
    r.logs = p.paths.logs := by
  simp only [Plan.machineRoles, bind_eq_ok_iff, pure_eq_ok_iff] at h
  obtain ⟨_, _, _, _, rfl⟩ := h
  rfl

theorem logs_of_ec2 {r : Workflow.Ec2Resource} (h : p.ec2 = .ok r) : r.logs = p.paths.logs := by
  simp only [Plan.ec2, bind_eq_ok_iff, pure_eq_ok_iff] at h
  obtain ⟨_, _, roles, hroles, rfl⟩ := h
  exact logs_of_machineRoles hroles

theorem logs_of_emr {r : Workflow.EmrCluster} (h : p.emr = .ok r) : r.logs = p.paths.logs := by
  simp only [Plan.emr, bind_eq_ok_iff, pure_eq_ok_iff] at h
  obtain ⟨_, _, roles, hroles, rfl⟩ := h
  exact logs_of_machineRoles hroles

theorem Placed.addMachine (hp : p.paths.ComposedOf bucket names) (hb : Placed bucket names b)
    (h : b.addMachine p m = .ok b') : Placed bucket names b' := by
  rcases addMachine_cases h with
    ⟨_, _, _, rfl⟩ | ⟨_, _, r, g, hr, hg, rfl⟩ | ⟨_, r, g, hr, hg, rfl⟩ | ⟨_, rfl⟩
  · exact ⟨hb.objects, hb.artifacts, hb.nodes, hb.lastOutput, hb.steps⟩
  · have logs : ∀ l ∈ (Workflow.Object.ec2 r).locations, l.ComposedOf bucket names :=
      List.forall_mem_singleton.mpr (logs_of_ec2 hr ▸ hp.logs)
    have hb' := hb.addObject hg logs
    exact ⟨hb'.objects, hb'.artifacts, hb'.nodes, hb'.lastOutput, hb'.steps⟩
  · have logs : ∀ l ∈ (Workflow.Object.emr r).locations, l.ComposedOf bucket names :=
      List.forall_mem_singleton.mpr (logs_of_emr hr ▸ hp.logs)
    have hb' := hb.addObject hg logs
    exact ⟨hb'.objects, hb'.artifacts, hb'.nodes, hb'.lastOutput, hb'.steps⟩
  · exact hb

theorem Placed.provideWarehouse (hb : Placed bucket names b) {kind : Step.Kind}
    (h : b.provideWarehouse p kind = .ok b') : Placed bucket names b' := by
  rcases provideWarehouse_cases h with ⟨_, rfl⟩ | ⟨_, _, d, g, hg, rfl⟩
  · exact hb
  · have hb' := hb.addObject hg (List.forall_mem_nil _)
    exact ⟨hb'.objects, hb'.artifacts, hb'.nodes, hb'.lastOutput, hb'.steps⟩

/-! ### Placing a step -/

/-- What a step reads is explained by the steps before it and by itself. -/
theorem Placed.resolveInput (hb : Placed bucket names b) {input : Nodes}
    (h : b.resolveInput s = .ok (input, b')) {t : CompiledStep} (hid : t.id = s.id)
    (hinput : t.input = input) :
    (∀ o ∈ b'.graph.objects, ∀ l ∈ o.locations, Explained bucket names (b.steps ++ [t]) l) ∧
      ∀ l ∈ input.locations, Explained bucket names (b.steps ++ [t]) l := by
  have before : ∀ o ∈ b.graph.objects, ∀ l ∈ o.locations,
      Explained bucket names (b.steps ++ [t]) l := fun o ho l hl => (hb.objects o ho l hl).append _
  rcases resolveInput_cases h with ⟨rfl, there⟩ | ⟨n, g, -, hg, rfl, rfl, hn, uri, path⟩
  · refine ⟨before, fun l hl => ?_⟩
    obtain ⟨n, hn, path⟩ := List.mem_filterMap.mp hl
    rcases there n hn with ⟨name, node⟩ | last
    · exact (hb.nodes _ node l path).append _
    · exact (hb.lastOutput l (List.mem_filterMap.mpr ⟨n, last, path⟩)).append _
  · have given : n.path ∈ t.given := by
      refine List.mem_append_right _ (List.mem_filterMap.mpr ⟨.ofStore n, ?_, rfl⟩)
      rw [hinput]
      refine List.mem_filter.mpr ⟨List.mem_cons_self, ?_⟩
      rw [hid]
      exact decide_eq_true hn
    have explained : Explained bucket names (b.steps ++ [t]) n.path :=
      .inr ⟨List.mem_flatMap.mpr ⟨t, List.mem_append_right _ List.mem_cons_self, given⟩,
        Location.isPlain_of_ofUri path⟩
    rw [Workflow.Graph.objects_of_add hg, List.forall_mem_append, List.forall_mem_singleton]
    exact ⟨⟨before, List.forall_mem_singleton.mpr explained⟩,
      List.forall_mem_singleton.mpr explained⟩

/-- The places that a step makes are explained by it. -/
theorem explained_of_madeBy {t : CompiledStep} {c : Step.Context} (ht : t ∈ steps)
    (hpaths : c.paths = p.paths.forStep t.id) (hp : p.paths.ComposedOf bucket names)
    (h : Step.MadeBy t.kind c t.output l) : Explained bucket names steps l := by
  have mine : t.names ⊆ names ++ steps.flatMap CompiledStep.names := fun n hn =>
    List.mem_append_right _ (List.mem_flatMap.mpr ⟨t, ht, hn⟩)
  have below {home : Location} (hhome : home.ComposedOf bucket names) :
      (home.joinDirectory t.id).ComposedOf bucket (names ++ steps.flatMap CompiledStep.names) :=
    (hhome.mono (List.subset_append_left _ _)).joinDirectory
      (Location.upBy_of_mem (mine List.mem_cons_self))
  cases h with
  | given hkind hl plain =>
    refine .inr ⟨List.mem_flatMap.mpr ⟨t, ht, List.mem_append_left _ ?_⟩, plain⟩
    rwa [if_pos hkind]
  | file hn =>
    rw [hpaths]
    exact .inl ((below hp.source).joinFile (Location.upBy_of_isSingle hn))
  | directory hn =>
    rw [hpaths]
    exact .inl ((below hp.source).joinDirectory (Location.upBy_of_isSingle hn))
  | data hn =>
    rw [hpaths]
    refine .inl ((below hp.data).joinDirectory ?_)
    rcases hn with hn | hn
    · exact Location.upBy_of_isSingle hn
    · exact Location.upBy_of_mem (mine (List.mem_cons_of_mem _ hn))

/-- What a step stages goes to places made from its id and single names. -/
theorem composedOf_destination {items : List Step.Staged} {kind : Step.Kind}
    (h : Step.Stages kind items) {home : Location} (hhome : home.ComposedOf bucket names) :
    ∀ a ∈ items.map (·.artifact home), a.destination.ComposedOf bucket names := by
  rw [List.forall_mem_map]
  intro i hi
  have single : Location.UpBy names i.name := Location.upBy_of_isSingle (h.isSingle i hi)
  rw [Step.Staged.artifact, Step.Staged.destination]
  split
  · exact hhome.joinDirectory single
  · exact hhome.joinFile single

theorem Placed.place (hp : p.paths.ComposedOf bucket names) (hb : Placed bucket names b)
    (h : place p s type b = .ok b') : Placed bucket names b' := by
  obtain ⟨b₁, h₁, input, b₂, h₂, dependsOn, -, e, he, h⟩ := place_eq_ok_iff.mp h
  have hb₁ := hb.provideWarehouse h₁
  have same := sameSteps_resolveInput h₂
  have added := addedStep_of_addStep h
  obtain ⟨objects, inputs⟩ := hb₁.resolveInput h₂ (t := compiled s type.kind input dependsOn e) rfl rfl
  have steps : b'.steps = b₁.steps ++ [compiled s type.kind input dependsOn e] := by
    rw [added.steps, same.steps]
  have itself : compiled s type.kind input dependsOn e ∈ b'.steps := by
    rw [steps]
    exact List.mem_append_right _ List.mem_cons_self
  have placed : ∀ l ∈ e.locations, Explained bucket names b'.steps l := fun l hl =>
    explained_of_madeBy itself rfl hp (Step.expand_placed he l hl)
  have output : ∀ l ∈ e.output.locations, Explained bucket names b'.steps l := fun l hl =>
    placed l (Step.output_subset_locations he hl)
  rw [← steps] at objects inputs
  have before {l : Location} (hl : Explained bucket names b₁.steps l) :
      Explained bucket names b'.steps l := by
    rw [steps]
    exact hl.append _
  constructor
  · rw [added.objects, List.forall_mem_append]
    refine ⟨objects, List.forall_mem_map.mpr fun o ho l hl => placed l ?_⟩
    rw [Workflow.locations_mapActivity
      fun a => Workflow.scripts_addDependencies a (b₂.waitsFor s.role type.kind.machine dependsOn)] at hl
    exact List.mem_flatMap.mpr ⟨o, ho, hl⟩
  · obtain ⟨items, stages, artifacts⟩ := Step.expand_stages he
    rw [artifacts_addStep h, artifacts, artifacts_resolveInput h₂, List.forall_mem_append]
    constructor
    · intro a ha
      refine (hb₁.artifacts a ha).mono ?_
      rw [steps]
      exact subset_names_append _ _ _
    · refine composedOf_destination stages ((hp.source.mono (List.subset_append_left _ _)).joinDirectory
        (Location.upBy_of_mem ?_))
      exact List.mem_append_right _ (List.mem_flatMap.mpr ⟨_, itself, List.mem_cons_self⟩)
  · intro q hq l hl
    rcases added.nodes q hq with hq | hq
    · rw [same.nodes] at hq
      exact before (hb₁.nodes q hq l hl)
    · exact output l (List.mem_filterMap.mpr ⟨q.2, hq, hl⟩)
  · intro l hl
    rcases added.lastOutput with last | last
    · rw [last, same.lastOutput] at hl
      exact before (hb₁.lastOutput l hl)
    · rw [last] at hl
      exact output l hl
  · rw [steps, List.forall_mem_append, List.forall_mem_singleton]
    refine ⟨fun t ht l hl => (hb₁.steps t ht l hl).append _, ?_⟩
    rw [← steps]
    exact List.forall_mem_append.mpr ⟨inputs, output⟩

/-! ### Runs -/

theorem Placed.change (hp : p.paths.ComposedOf bucket names) (hb : Placed bucket names b)
    (h : Change p b b') : Placed bucket names b' := by
  cases h with
  | machine _ h => exact hb.addMachine hp h
  | place _ _ _ h => exact hb.place hp h
  | prepare =>
    rename_i m _ s _ _ _
    cases m <;> exact ⟨hb.objects, hb.artifacts, hb.nodes, hb.lastOutput, hb.steps⟩

theorem Placed.run (hp : p.paths.ComposedOf bucket names) (hb : Placed bucket names b)
    (h : ReflTransGen (Change p) b b') : Placed bucket names b' := by
  induction h with
  | refl => exact hb
  | tail _ change ih => exact ih.change hp change

end Build

theorem placed_base {p : Plan} {start : Time.Instant} {b : Build}
    (hp : p.paths.ComposedOf bucket names) (h : Compiler.base p start = .ok b) :
    b.Placed bucket names := by
  obtain ⟨s, d, g, alarm, rfl, objects, -, -, -, logs⟩ := base_spec h
  refine ⟨?_, List.forall_mem_nil _, List.forall_mem_nil _, List.forall_mem_nil _,
    List.forall_mem_nil _⟩
  have explained : Explained bucket names [] d.logs := by
    rw [logs]
    exact .inl (hp.logs.mono (List.subset_append_left _ _))
  rw [objects, List.forall_mem_cons, List.forall_mem_append, List.forall_mem_map]
  refine ⟨?_, fun a _ => ?_, List.forall_mem_singleton.mpr ?_⟩
  · rw [Workflow.locations_schedule]
    exact List.forall_mem_nil _
  · rw [Workflow.locations_alarm]
    exact List.forall_mem_nil _
  · rw [Workflow.locations_defaults]
    exact List.forall_mem_singleton.mpr explained

theorem placed_build {p : Plan} {start : Time.Instant} {b : Build}
    (hp : p.paths.ComposedOf bucket names) (h : Compiler.build p start = .ok b) :
    b.Placed bucket names := by
  obtain ⟨b₀, b₁, h₀, hrun, hends⟩ := build_run h
  have hb₁ := (placed_base hp h₀).run hp hrun
  cases hends with
  | without _ => exact hb₁
  | teardown _ _ hplace => exact hb₁.place hp hplace

/-! ### Compiled pipelines -/

/-- The version of a pipeline is a single name. -/
theorem isSingle_version (now : Time.Instant) : IsSingle (Compiler.version now) := by
  have name : Storage.IsName (Compiler.version now) := by
    constructor
    · rw [ne_eq, ← String.toList_eq_nil_iff, Compiler.version, String.toList_append]
      exact List.append_ne_nil_of_left_ne_nil (by decide) _
    · rw [Compiler.version, String.toList_append, List.mem_append, not_or]
      exact ⟨by decide, fun slash => (Time.Instant.isNumeral_of_mem_stamp slash).ne_slash rfl⟩
  have start {other : String} (h : other.toList.head? ≠ some 'v') :
      Compiler.version now ≠ other := by
    rintro rfl
    refine h ?_
    rw [Compiler.version, String.toList_append]
    rfl
  rw [IsSingle, Files.Path.walk_name name, Files.Step.ofPart, if_neg (start (by decide)),
    if_neg (start (by decide))]

/-- The names that every place of a pipeline of the name is made from. -/
def commonNames (etl : Settings.Etl) (name : String) : List String :=
  [etl.basePath, etl.checkLogPath, name]

theorem composedOf_ofPipeline {etl : Settings.Etl} {name : String} {now : Time.Instant}
    {frequency : Workflow.Frequency} {paths : Paths}
    (h : Paths.ofPipeline etl name (Compiler.version now) frequency = .ok paths) :
    ∃ bucket, etl.bucket = .ok bucket ∧ paths.ComposedOf bucket (commonNames etl name) := by
  simp only [Paths.ofPipeline, bind_eq_ok_iff, pure_eq_ok_iff] at h
  obtain ⟨bucket, hbucket, rfl⟩ := h
  have base : (Location.directory bucket etl.basePath).ComposedOf bucket (commonNames etl name) :=
    Location.composedOf_directory (Location.upBy_of_mem (by simp [commonNames]))
  have part {n : String} (hn : IsSingle n) :
      ((((Location.directory bucket etl.basePath).joinDirectory n).joinDirectory name).joinDirectory
        (Compiler.version now)).ComposedOf bucket (commonNames etl name) :=
    ((base.joinDirectory (Location.upBy_of_isSingle hn)).joinDirectory
      (Location.upBy_of_mem (by simp [commonNames]))).joinDirectory
        (Location.upBy_of_isSingle (isSingle_version now))
  refine ⟨bucket, hbucket, part (by decide), ?_, part (by decide), ?_⟩
  · dsimp only
    split
    · exact part (by decide)
    · exact (part (by decide)).joinDirectory (Location.upBy_of_isSingle (by decide))
  · exact (base.joinDirectory (Location.upBy_of_mem (by simp [commonNames]))).joinDirectory
      (Location.upBy_of_mem (by simp [commonNames]))

/-- The locations in the directories of a pipeline, its steps, its objects, and what is staged. -/
def locations (p : Pipeline) : List Location :=
  [p.paths.source, p.paths.data, p.paths.logs, p.paths.checkLogs, p.paths.definition] ++
    p.steps.flatMap (fun s => [p.paths.source.joinDirectory s.id, p.paths.data.joinDirectory s.id,
      p.paths.logs.joinDirectory s.id] ++ s.locations) ++
    p.graph.objects.flatMap Workflow.Object.locations ++ p.artifacts.map (·.destination)

/-- Every location of a pipeline is explained where those of its build are. -/
theorem explained_of_placed {p : Pipeline} {b : Build} (hp : p.paths.ComposedOf bucket names)
    (hb : b.Placed bucket names) (graph : p.graph = b.graph.reduced) (hsteps : p.steps = b.steps)
    (artifacts : p.artifacts = b.artifacts) :
    ∀ l ∈ p.locations, Explained bucket names p.steps l := by
  have common {l : Location} (hl : l.ComposedOf bucket names) : Explained bucket names p.steps l :=
    .inl (hl.mono (List.subset_append_left _ _))
  have below {home : Location} (hhome : home.ComposedOf bucket names) :
      ∀ s ∈ p.steps, Explained bucket names p.steps (home.joinDirectory s.id) := by
    intro s hs
    have mine : s.id ∈ names ++ p.steps.flatMap CompiledStep.names :=
      List.mem_append_right _ (List.mem_flatMap.mpr ⟨s, hs, List.mem_cons_self⟩)
    exact .inl ((hhome.mono (List.subset_append_left _ _)).joinDirectory (Location.upBy_of_mem mine))
  have definition : Explained bucket names p.steps p.paths.definition :=
    common (hp.source.joinFile (Location.upBy_of_isSingle (by decide)))
  have nodes : ∀ s ∈ p.steps, ∀ l ∈ s.locations, Explained bucket names p.steps l := by
    rw [hsteps]
    exact hb.steps
  have objects : ∀ o ∈ p.graph.objects, ∀ l ∈ o.locations, Explained bucket names p.steps l := by
    rw [graph, Workflow.Graph.objects_reduced, List.forall_mem_map, hsteps]
    intro o ho l hl
    rw [Workflow.locations_mapActivity fun a => Workflow.scripts_setDependencies a _] at hl
    exact hb.objects o ho l hl
  have staged : ∀ a ∈ p.artifacts, Explained bucket names p.steps a.destination := by
    rw [artifacts, hsteps]
    exact fun a ha => .inl (hb.artifacts a ha)
  simp only [locations, List.forall_mem_append, List.forall_mem_cons, List.forall_mem_flatMap,
    List.forall_mem_map]
  exact ⟨⟨⟨⟨common hp.source, common hp.data, common hp.logs, common hp.checkLogs, definition,
      List.forall_mem_nil _⟩,
    fun s hs => ⟨⟨below hp.source s hs, below hp.data s hs, below hp.logs s hs,
      List.forall_mem_nil _⟩, nodes s hs⟩⟩, objects⟩, staged⟩

/-- The names that the places of a pipeline are made from. -/
def placeNames (p : Pipeline) (etl : Settings.Etl) : List String :=
  commonNames etl p.name ++ p.steps.flatMap CompiledStep.names

/-- Every location of a compiled pipeline is explained, and what is staged goes to places that are
made from names. -/
theorem explained_compileDefinition {c : Compiler} {d : Definition} {p : Pipeline}
    (h : c.compileDefinition d = .ok p) :
    ∃ bucket, c.settings.etl.bucket = .ok bucket ∧
      (∀ l ∈ p.locations, Explained bucket (commonNames c.settings.etl p.name) p.steps l) ∧
      ∀ a ∈ p.artifacts, a.destination.ComposedOf bucket (p.placeNames c.settings.etl) := by
  simp only [Compiler.compileDefinition, bind_eq_ok_iff, mapError_eq_ok_iff, pure_eq_ok_iff] at h
  obtain ⟨plan, hplan, start, -, b, hb, g, hg, rfl⟩ := h
  rw [Compiler.reduce_eq_ok (grounded_build hb).graph] at hg
  cases hg
  simp only [Compiler.plan, bind_eq_ok_iff, mapError_eq_ok_iff, pure_eq_ok_iff] at hplan
  obtain ⟨paths, hpaths, rfl⟩ := hplan
  obtain ⟨bucket, hbucket, hp⟩ := composedOf_ofPipeline hpaths
  have placed := placed_build hp hb
  exact ⟨bucket, hbucket, explained_of_placed hp placed rfl rfl rfl, placed.artifacts⟩

/-! ### Uploads -/

variable {c : Compiler} {d : Definition} {p : Pipeline} {files : Tree} {a : Step.Artifact}
  {us : List Upload}

/-- A location that a pipeline names, or that the activation uploads to. -/
inductive Produces (p : Pipeline) (files : Tree) : Location → Prop
  | named {l : Location} : l ∈ p.locations → Produces p files l
  | uploaded {a : Step.Artifact} {us : List Upload} {u : Upload} : a ∈ p.artifacts →
      uploads files a = .ok us → u ∈ us → Produces p files u.destination

/-- The locations that the steps of a pipeline give by a URI. -/
def given (p : Pipeline) : List Location := p.steps.flatMap CompiledStep.given

/-- The names of the files that can be staged. -/
def fileNames (files : Tree) : List String := files.entries.flatMap (·.1)

theorem mem_fileNames_of_mem_filesBelow {place below : Files.Place} {content : ByteArray} {n : String}
    (h : (below, content) ∈ files.filesBelow place) (hn : n ∈ below) : n ∈ fileNames files := by
  rw [Tree.filesBelow, List.mem_mergeSort, List.mem_filterMap] at h
  obtain ⟨⟨whole, entry⟩, there, found⟩ := h
  cases entry with
  | directory => cases found
  | file content' =>
    dsimp only at found
    split at found
    · cases found
      exact List.mem_flatMap.mpr ⟨_, there, List.mem_of_mem_drop hn⟩
    · cases found

/-- The uploads of an artifact go to its destination, or to places below it under the names of
files. -/
theorem composedOf_uploads (ha : a.destination.ComposedOf bucket names)
    (h : uploads files a = .ok us) :
    ∀ u ∈ us, u.destination.ComposedOf bucket (names ++ fileNames files) := by
  have mine := ha.mono (List.subset_append_left names (fileNames files))
  unfold uploads at h
  split at h
  · cases h
    exact List.forall_mem_singleton.mpr mine
  · cases h
    exact List.forall_mem_singleton.mpr mine
  · split at h
    · cases h
    · cases h
      exact List.forall_mem_singleton.mpr (mine.joinFile nofun)
    · cases h
      rw [List.forall_mem_map]
      rintro ⟨below, content⟩ hbelow
      refine mine.joinFile fun up => ?_
      rw [Files.Path.walk_intercalate, List.mem_flatMap] at up
      obtain ⟨n, hn, up⟩ := up
      exact ⟨n, List.mem_append_right _ (mem_fileNames_of_mem_filesBelow hbelow hn), up⟩

/-! ### Below the root -/

/-- Every location of a pipeline is given by a URI, or made from names in the bucket of the settings.
-/
theorem given_or_composedOf (h : c.compileDefinition d = .ok p) (files : Tree) :
    ∃ bucket, c.settings.etl.bucket = .ok bucket ∧ ∀ l, p.Produces files l →
      (l ∈ p.given ∧ l.IsPlain) ∨
        l.ComposedOf bucket (p.placeNames c.settings.etl ++ fileNames files) := by
  obtain ⟨bucket, hbucket, explained, staged⟩ := explained_compileDefinition h
  refine ⟨bucket, hbucket, fun l produced => ?_⟩
  cases produced with
  | named hl =>
    rcases explained l hl with composed | given
    · exact .inr (composed.mono (List.subset_append_left _ _))
    · exact .inl given
  | uploaded ha hus hu => exact .inr (composedOf_uploads (staged _ ha) hus _ hu)

/-- A local store keeps what a compiled pipeline names, and what its activation uploads, strictly
below every root exactly when the steps of bucket and key stay below their start.  So does all that
is not given by a URI, where the bucket is a single name and no name goes up of those that keys are
made from: the base directory, the directory for the logs of checks, the name of the pipeline, the
ids of its steps, the names of their outputs, and the names of files. -/
theorem localPath_isBelow (h : c.withoutHooks.compile d = .ok p) (files : Tree) :
    ∃ bucket, c.settings.etl.bucket = .ok bucket ∧ (Files.Path.isAbsolute bucket = false →
      ∀ l, p.Produces files l →
        ((∀ (t : Tree) root, t.IsBelow root (localPath root l)) ↔ StaysBelow l.walk) ∧
        (l ∈ p.given ∨ (IsSingle bucket →
          (∀ n ∈ p.placeNames c.settings.etl ++ fileNames files, .up ∉ Files.Path.walk n) →
            ∀ (t : Tree) root, t.IsBelow root (localPath root l)))) := by
  rw [Compiler.compile_withoutHooks] at h
  obtain ⟨bucket, hbucket, places⟩ := given_or_composedOf h files
  refine ⟨bucket, hbucket, fun relative l produced => ?_⟩
  rcases places l produced with ⟨given, plain⟩ | composed
  · exact ⟨Location.forall_isBelow_iff plain.isAbsolute_bucket plain.isAbsolute_key, .inl given⟩
  · have criterion := Location.forall_isBelow_iff (by rw [composed.bucket]; exact relative)
      composed.relative
    exact ⟨criterion, .inr fun single calm => criterion.mpr (composed.staysBelow single calm)⟩

/-- A step of some id that runs a script. -/
def oneScript (id : String) : Definition where
  name := "words"
  frequency := .oneTime
  steps := [Compiler.describe "transform" id [("script", "run.sh")]]

/-- What a definition comes to has the name of its plan, and the steps and artifacts of its build. -/
theorem compile_of_built {β : Type} {f : Build → β} {v : β}
    (h : (c.built d).toOption.map f = some v) :
    ∃ p b, c.withoutHooks.compile d = .ok p ∧ f b = v ∧
      p.name = c.settings.etl.namePrefix ++ d.name ∧ p.steps = b.steps ∧
      p.artifacts = b.artifacts := by
  obtain ⟨b, hb, rfl⟩ := exists_ok_of_map_toOption h
  obtain ⟨p, hp⟩ := Compiler.exists_compileDefinition hb
  refine ⟨p, b, (Compiler.compile_withoutHooks c d).trans hp, rfl, ?_⟩
  simp only [Compiler.compileDefinition, bind_eq_ok_iff, mapError_eq_ok_iff, pure_eq_ok_iff] at hp
  obtain ⟨plan, hplan, start, hstart, b', hb', g, -, rfl⟩ := hp
  have same := hb.symm.trans (Compiler.built_eq_ok_iff.mpr ⟨plan, hplan, start, hstart, hb'⟩)
  cases same
  simp only [Compiler.plan, bind_eq_ok_iff, mapError_eq_ok_iff, pure_eq_ok_iff] at hplan
  obtain ⟨paths, -, rfl⟩ := hplan
  exact ⟨rfl, rfl, rfl⟩

theorem localPath_isBelow_oneScript :
    ∃ p, Compiler.sample.withoutHooks.compile (oneScript "fetch") = .ok p ∧
      p.artifacts.map (·.destination.uri) =
        ["s3://etl/src/words/version_19700101000000/fetch/run.sh"] ∧
      ∀ a ∈ p.artifacts, ∀ (t : Tree) root, t.IsBelow root (localPath root a.destination) := by
  obtain ⟨p, b, h, built, name, steps, artifacts⟩ := compile_of_built
    (c := Compiler.sample) (d := oneScript "fetch")
    (f := fun b => (b.steps.flatMap CompiledStep.names, b.steps.flatMap CompiledStep.given,
      b.artifacts.map (·.destination.uri)))
    (v := (["fetch"], [], ["s3://etl/src/words/version_19700101000000/fetch/run.sh"]))
    (by decide +kernel)
  rw [← steps, ← artifacts, Prod.mk.injEq, Prod.mk.injEq] at built
  obtain ⟨names, given, uris⟩ := built
  refine ⟨p, h, uris, fun a ha => ?_⟩
  obtain ⟨bucket, hbucket, below⟩ := localPath_isBelow h {}
  cases hbucket
  have produced : p.Produces {} a.destination :=
    .named (List.mem_append_right _ (List.mem_map_of_mem ha))
  have calm : ∀ n ∈ p.placeNames Compiler.sample.settings.etl ++ fileNames {},
      Files.Step.up ∉ Files.Path.walk n := by
    rw [placeNames, names, name]
    decide +kernel
  rcases (below (by decide) _ produced).2 with there | inside
  · rw [Pipeline.given, given] at there
    cases there
  · exact inside (by decide) calm

/-- A step whose id goes up far enough is staged outside of the root. -/
theorem not_localPath_isBelow :
    ∃ p, Compiler.sample.withoutHooks.compile (oneScript "../../../../../../..") = .ok p ∧
      ∃ l, p.Produces {} l ∧ ¬Tree.IsBelow {} "store" (localPath "store" l) := by
  obtain ⟨p, b, h, built, -, -, artifacts⟩ := compile_of_built
    (c := Compiler.sample) (d := oneScript "../../../../../../..")
    (f := fun b => b.artifacts.map (·.destination)) (v := [⟨"etl",
      "src/words/version_19700101000000/../../../../../../../run.sh", false⟩]) (by decide +kernel)
  rw [← artifacts] at built
  refine ⟨p, h, _, .named (List.mem_append_right _ (built ▸ List.mem_cons_self)), ?_⟩
  have place : Tree.placeOf {} (localPath "store" ⟨"etl",
      "src/words/version_19700101000000/../../../../../../../run.sh", false⟩) = ["run.sh"] := by
    decide +kernel
  have root : Tree.placeOf {} "store" = ["store"] := by decide +kernel
  rintro ⟨below, -, same⟩
  rw [place, root] at same
  exact absurd (List.cons.inj same).1 (by decide)

end EtlFlow.Pipeline
