import EtlFlow.Proofs.Pipeline.Closed
import EtlFlow.Proofs.Pipeline.Demand
import EtlFlow.Proofs.Pipeline.Naming
import EtlFlow.Proofs.Step.Endings
/-!
# Made up ids never collide

Where no step has a name and no command names an output twice (`Plan.Unnamed`), all ids of a
pipeline are made up.  On the way to a build the ids of the steps that are still to come are free
(`Named`): a resource has its id only when it is recorded, and the id of an object tells which step
it belongs to.  So nothing fails because an id is to be given twice (`made_up_ids`).
-/

namespace EtlFlow.Pipeline

open Outcome
open Step (Kind Machine Nodes Descriptor TransformArguments)
open Workflow (Activity Object ObjectId Resource)

/-! ### Plans without names -/

/-- The descriptions of the steps of a plan, as far as they can be read. -/
def Plan.descriptors (p : Plan) : List Descriptor :=
  p.definition.steps ++
    (p.bootstrap .ec2 ++ p.bootstrap .emr).filterMap (fun v => (Descriptor.ofValue v).toOption) ++
    (p.teardown?.toOption.bind id).toList

/-- The outputs that the description of a command names. -/
def Plan.outputNames (p : Plan) (d : Descriptor) : List String :=
  match p.resolve d with
  | .ok ⟨.transform, defaults⟩ =>
    ((Step.readArguments TransformArguments.fields
      (Descriptor.withDefaults d.arguments defaults)).toOption.bind (·.outputs)).getD []
  | _ => []

/-- No step has a name, and no command names an output twice. -/
structure Plan.Unnamed (p : Plan) : Prop where
  name : ∀ d ∈ p.descriptors, d.name = none
  outputs : ∀ d ∈ p.descriptors, (p.outputNames d).Nodup

instance (p : Plan) : Decidable p.Unnamed :=
  decidable_of_iff ((∀ d ∈ p.descriptors, d.name = none) ∧
    ∀ d ∈ p.descriptors, (p.outputNames d).Nodup)
    ⟨fun h => ⟨h.1, h.2⟩, fun h => ⟨h.name, h.outputs⟩⟩

variable {p : Plan} {P : Tally} {b b' : Build} {m : Machine} {o : Origin} {s : PlannedStep} {k : ℕ}
  {type : Step.StepType}

theorem Plan.Plans.mem_descriptors (hs : p.Plans o k s) : s.descriptor ∈ p.descriptors := by
  unfold Plan.descriptors
  cases hs with
  | step hd _ => exact List.mem_append_left _ (List.mem_append_left _ (List.mem_of_getElem? hd))
  | @bootstrap m _ v _ _ _ hv hd _ =>
      refine List.mem_append_left _ (List.mem_append_right _ (List.mem_filterMap.mpr ⟨v, ?_, ?_⟩))
      · cases m with
        | ec2 => exact List.mem_append_left _ (List.mem_of_getElem? hv)
        | emr => exact List.mem_append_right _ (List.mem_of_getElem? hv)
        | none => cases hv
      · rw [hd]
        rfl
  | teardown hd _ =>
      rw [hd]
      exact List.mem_append_right _ List.mem_cons_self

theorem exists_type_of_stepId {start id : String} {d : Descriptor} (hname : d.name = none)
    (h : p.stepId start d k = .ok id) :
    ∃ type, p.resolve d = .ok type ∧ id = start ++ type.kind.idStart ++ toString k := by
  unfold Plan.stepId at h
  rw [hname] at h
  obtain ⟨type, htype, hid⟩ := bind_eq_ok_iff.mp h
  exact ⟨type, htype, (pure_eq_ok_iff.mp hid).symm⟩

/-- A planned step is named after its place in the plan. -/
theorem Plan.Unnamed.exists_spot (hp : p.Unnamed) (hs : p.Plans o k s) :
    ∃ type, p.resolve s.descriptor = .ok type ∧ s.id = Spot.id ⟨o, type.kind, k⟩ ∧
      Spot.IsProper ⟨o, type.kind, k⟩ := by
  have hname := hp.name _ hs.mem_descriptors
  cases hs with
  | step _ hid =>
      obtain ⟨type, htype, hid⟩ := exists_type_of_stepId hname hid
      refine ⟨type, htype, ?_, nofun, nofun⟩
      rw [hid, Spot.id_definition, String.empty_append]
  | @bootstrap m _ _ _ _ _ hv _ hid =>
      obtain ⟨type, htype, hid⟩ := exists_type_of_stepId hname hid
      have hm : m ≠ .none := by
        rintro rfl
        cases hv
      refine ⟨type, htype, ?_, fun h => hm (Origin.machine.inj h), nofun⟩
      rw [hid, Spot.id_machine hm]
  | @teardown d type _ _ htype =>
      refine ⟨type, htype, ?_, nofun, fun _ => rfl⟩
      rw [Spot.id_teardown, show d.name = none from hname]
      rfl

/-! ### Endings -/

/-- The endings of the ids of a step's objects and the one of the node at its input path differ. -/
structure Apart (endings : List String) : Prop where
  nodup : ("InputPath" :: endings).Nodup
  isEnding : ∀ e ∈ endings, IsEnding e

theorem Apart.isEnding_of_mem {endings : List String} (h : Apart endings) {e : String}
    (he : e ∈ "InputPath" :: endings) : IsEnding e := by
  rcases List.mem_cons.mp he with rfl | he
  · decide
  · exact h.isEnding e he

theorem apart_kind (k : Kind) : Apart k.endings := by
  constructor <;> cases k <;> decide

theorem head?_underscore (name : String) : ("_" ++ name).toList.head? = some '_' := by
  rw [String.toList_append]
  rfl

/-- The endings of outputs are `Output`, or begin with an underscore. -/
theorem outputEndings_cases {a : TransformArguments}
    (h : ∀ names, a.outputs = some names → names.Nodup) :
    a.outputEndings.Nodup ∧ ∀ e ∈ a.outputEndings, e = "Output" ∨ e.toList.head? = some '_' := by
  unfold TransformArguments.outputEndings
  split
  · exact ⟨List.nodup_nil, fun _ he => absurd he List.not_mem_nil⟩
  · cases houtputs : a.outputs with
    | none => exact ⟨List.nodup_singleton _, fun _ he => .inl (List.mem_singleton.mp he)⟩
    | some names =>
        refine ⟨(h names houtputs).map fun _ _ h => (String.append_right_inj _).mp h, ?_⟩
        exact List.forall_mem_map.mpr fun name _ => .inr (head?_underscore name)

/-- Distinct names of outputs make distinct endings. -/
theorem apart_transform {a : TransformArguments}
    (h : ∀ names, a.outputs = some names → names.Nodup) : Apart a.endings := by
  obtain ⟨hnodup, houtputs⟩ := outputEndings_cases h
  have hfixed : ("InputPath" :: a.directoryEndings ++ [""]).Nodup ∧
      ∀ e ∈ "InputPath" :: a.directoryEndings ++ [""],
        IsEnding e ∧ e ≠ "Output" ∧ e.toList.head? ≠ some '_' := by
    unfold TransformArguments.directoryEndings
    split <;> decide
  -- The endings that the kind fixes come first, so that they can be told from those of outputs.
  have hperm : ("InputPath" :: a.endings).Perm
      (("InputPath" :: a.directoryEndings ++ [""]) ++ a.outputEndings) := by
    rw [TransformArguments.endings, List.append_assoc, List.cons_append, List.cons_append,
      List.append_assoc]
    exact .cons _ (List.perm_append_comm.append_left _)
  constructor
  · rw [hperm.nodup_iff, List.nodup_append]
    refine ⟨hfixed.1, hnodup, ?_⟩
    rintro e he _ he' rfl
    obtain ⟨_, hne, hhead⟩ := hfixed.2 e he
    exact (houtputs e he').elim hne hhead
  · intro e he
    rcases List.mem_append.mp (hperm.mem_iff.mp (List.mem_cons_of_mem _ he)) with he | he
    · exact (hfixed.2 e he).1
    · rcases houtputs e he with rfl | hhead
      · decide
      · intro c hc
        rw [hhead] at hc
        cases Option.mem_some_iff.mp hc
        decide

theorem Plan.Unnamed.exists_endings (hp : p.Unnamed) (hs : p.Plans o k s)
    (htype : p.resolve s.descriptor = .ok type) {c : Step.Context} {e : Step.Expansion}
    (h : Step.expand type.kind (Descriptor.withDefaults s.descriptor.arguments type.defaults) c =
      .ok e) : ∃ endings, e.HasEndings c endings ∧ Apart endings := by
  have hexpand := mapError_eq_ok_iff.mp h
  by_cases hkind : type.kind = .transform
  · rw [hkind, Kind.expand, Step.expandWith, bind_eq_ok_iff] at hexpand
    obtain ⟨a, ha, htransform⟩ := hexpand
    refine ⟨_, Step.transform_ids htransform, apart_transform fun names hnames => ?_⟩
    have hnodup := hp.outputs _ hs.mem_descriptors
    obtain ⟨_, defaults⟩ := type
    subst hkind
    simpa only [Plan.outputNames, htype, ha, Except.toOption, Option.bind_some, hnames,
      Option.getD_some] using hnodup
  · exact ⟨_, Kind.expand_ids hkind hexpand, apart_kind _⟩

/-! ### Used ids -/

/-- What the id is made up for is there, or is of a step that is placed. -/
def Used (p : Plan) (P : Tally) (b : Build) : MadeUp → Prop
  | .shared (.resource r) => b.records p r = true
  | .shared _ => True
  | .part s _ => s.position < P s.origin

/-- The ids of a build are made up, and those of the steps that are to come are free. -/
structure Named (p : Plan) (P : Tally) (b : Build) : Prop where
  steps : ∀ t ∈ b.steps, ∃ s : Spot, s.IsProper ∧ s.position < P s.origin ∧ t.id = s.id
  distinct : (b.steps.map CompiledStep.id).Nodup
  objects : ∀ id ∈ b.graph.ids, ∃ x : MadeUp, x.IsProper ∧ Used p P b x ∧ id = x.text

/-- An id was to be given twice. -/
def Error.IsCollision : Error → Prop
  | .input (.repeatedStep _) => True
  | .workflow (.duplicate _) => True
  | _ => False

namespace Named

variable {P' : Tally}

theorem not_mem (hb : Named p P b) {x : MadeUp} (hx : x.IsProper) (hfree : ¬ Used p P b x) :
    x.text ∉ b.graph.ids := by
  intro hmem
  obtain ⟨x', hx', hused, htext⟩ := hb.objects _ hmem
  rw [MadeUp.text_injOn hx hx' htext] at hfree
  exact hfree hused

theorem used_mono (hP : ∀ o, P o ≤ P' o)
    (hrecords : ∀ r, b.records p r = true → b'.records p r = true) {x : MadeUp}
    (hx : Used p P b x) : Used p P' b' x := by
  rcases x with (_ | _ | _ | r) | ⟨s, _⟩
  · trivial
  · trivial
  · trivial
  · exact hrecords r hx
  · exact Nat.lt_of_lt_of_le hx (hP s.origin)

/-- The steps stay as they are, and each further id is made up. -/
theorem grow (hb : Named p P b) (hsteps : b'.steps = b.steps)
    (hrecords : ∀ r, b.records p r = true → b'.records p r = true)
    (hids : ∀ id ∈ b'.graph.ids, id ∈ b.graph.ids ∨
      ∃ x : MadeUp, x.IsProper ∧ Used p P b' x ∧ id = x.text) : Named p P b' where
  steps := by
    rw [hsteps]
    exact hb.steps
  distinct := by
    rw [hsteps]
    exact hb.distinct
  objects id hid := by
    rcases hids id hid with hid | hid
    · obtain ⟨x, hx, hused, htext⟩ := hb.objects id hid
      exact ⟨x, hx, used_mono (fun _ => le_rfl) hrecords hused, htext⟩
    · exact hid

end Named

/-- An object with a new id can be added. -/
theorem exists_addObject {b : Build} {o : Object} (h : o.id ∉ b.graph.ids) :
    ∃ g, b.addObject o = .ok { b with graph := g } ∧ g.ids = b.graph.ids ++ [o.id] := by
  obtain ⟨g, hg⟩ : ∃ g, b.graph.add o = .ok g := ⟨_, dif_neg h⟩
  refine ⟨g, ?_, Build.ids_of_add hg⟩
  rw [Build.addObject, hg]
  rfl

/-- Objects with new and distinct ids can be added. -/
theorem exists_addAll {g : Workflow.Graph} {os : List Object}
    (h : (g.ids ++ os.map Object.id).Nodup) : ∃ g', g.addAll os = .ok g' := by
  induction os generalizing g with
  | nil => exact ⟨g, rfl⟩
  | cons o os ih =>
      have hnew : o.id ∉ g.ids := fun hmem =>
        (List.nodup_append.mp h).2.2 _ hmem _ List.mem_cons_self rfl
      obtain ⟨g₁, hg₁⟩ : ∃ g₁, g.add o = .ok g₁ := ⟨_, dif_neg hnew⟩
      rw [List.map_cons, List.append_cons, ← Build.ids_of_add hg₁] at h
      obtain ⟨g', hg'⟩ := ih h
      refine ⟨g', ?_⟩
      rw [Workflow.Graph.addAll, List.foldlM_cons, hg₁]
      exact hg'

namespace Named

/-- A resource that is not there can be added. -/
theorem exists_addResource (hb : Named p P b) {r : Resource} {o : Object}
    (ho : o.id = Shared.id (.resource r)) (hr : b.records p r = false) :
    ∃ g, b.addObject o = .ok { b with graph := g } ∧
      ∀ b' : Build, b'.graph = g → b'.steps = b.steps →
        (∀ r', b.records p r' = true ∨ r' = r → b'.records p r' = true) → Named p P b' := by
  have hnew : o.id ∉ b.graph.ids := by
    rw [ho]
    exact hb.not_mem (x := .shared (.resource r)) trivial (by simp [Used, hr])
  obtain ⟨g, hg, hids⟩ := exists_addObject hnew
  refine ⟨g, hg, fun b' hgraph hsteps hrecords => ?_⟩
  refine hb.grow hsteps (fun r' hr' => hrecords r' (.inl hr')) fun id hid => ?_
  rw [hgraph, hids, List.mem_append, List.mem_singleton] at hid
  exact hid.imp_right fun hid =>
    ⟨.shared (.resource r), trivial, hrecords r (.inr rfl), hid.trans ho⟩

theorem addMachine (hb : Named p P b) (hm : b.isReady m = false) :
    Meets (Named p P) (fun e => ¬ e.IsCollision) (b.addMachine p m) := by
  cases m with
  | none => cases hm
  | ec2 =>
      cases hgroup : p.workerGroup with
      | some group =>
          simp only [Build.addMachine, hgroup]
          refine meets_ok (hb.grow rfl (fun r hr => ?_) fun id hid => .inl hid)
          cases r <;> simp_all [Build.records, Build.isReady]
      | none =>
          simp only [Build.addMachine, hgroup]
          refine (meets_mapError fun _ _ => id).bind fun machine _ => ?_
          obtain ⟨g, hg, hnamed⟩ := hb.exists_addResource (r := .ec2) (o := .ec2 machine) rfl
            (by simp [Build.records, hm])
          rw [hg]
          refine meets_ok (hnamed _ rfl rfl fun r hr => ?_)
          cases r <;> simp_all [Build.records, Build.isReady]
  | emr =>
      refine (meets_mapError fun _ _ => id).bind fun cluster _ => ?_
      obtain ⟨g, hg, hnamed⟩ := hb.exists_addResource (r := .emr) (o := .emr cluster) rfl hm
      rw [hg]
      refine meets_ok (hnamed _ rfl rfl fun r hr => ?_)
      cases r <;> simp_all [Build.records, Build.isReady]

theorem provideWarehouse (hb : Named p P b) (kind : Kind) :
    Meets (Named p P) (fun e => ¬ e.IsCollision) (b.provideWarehouse p kind) := by
  unfold Build.provideWarehouse
  split
  · unfold Build.requireWarehouse
    split
    · exact meets_ok hb
    · next hnone =>
        refine (meets_mapError fun _ _ => id).bind fun database _ => ?_
        obtain ⟨g, hg, hnamed⟩ := hb.exists_addResource (r := .redshift) (o := .redshift database)
          rfl (Bool.eq_false_iff.mpr hnone)
        rw [hg]
        refine meets_ok (hnamed _ rfl rfl fun r hr => ?_)
        cases r <;> simp_all [Build.records, Build.isReady]
  · exact meets_ok hb

/-- A step that is to come has all the ids that it may need. -/
theorem nodup_step (hb : Named p P b) {spot : Spot} (hs : spot.IsProper)
    (hspot : ¬ spot.position < P spot.origin) {endings : List String} (he : Apart endings) :
    (b.graph.ids ++ ("InputPath" :: endings).map (spot.id ++ ·)).Nodup := by
  rw [List.nodup_append]
  refine ⟨b.graph.nodup_ids, he.nodup.map fun _ _ h => (String.append_right_inj _).mp h, ?_⟩
  rintro id hid _ hmem rfl
  obtain ⟨ending, hending, rfl⟩ := List.mem_map.mp hmem
  exact hb.not_mem (x := .part spot ending) ⟨hs, he.isEnding_of_mem hending⟩ hspot hid

end Named

/-- The build differs in a node at the input path of the step, if at all. -/
structure Reads (p : Plan) (s : PlannedStep) (b b' : Build) : Prop where
  steps : b'.steps = b.steps
  records : b'.records p = b.records p
  ids : ∃ added, List.Sublist added [s.id ++ "InputPath"] ∧ b'.graph.ids = b.graph.ids ++ added

theorem meets_resolveInput (hnew : s.id ++ "InputPath" ∉ b.graph.ids) :
    Meets (fun r => Reads p s b r.2) (fun e => ¬ e.IsCollision) (b.resolveInput s) := by
  have hnode (name : String) :
      Meets (fun _ => True) (fun e => ¬ e.IsCollision) (b.node s.id name) := by
    unfold Build.node
    split
    · exact meets_ok trivial
    · exact meets_error id
  have hsame : Reads p s b b := ⟨rfl, rfl, [], List.nil_sublist _, (List.append_nil _).symm⟩
  unfold Build.resolveInput
  split
  · exact meets_error id
  · exact (hnode _).bind fun n _ => meets_ok hsame
  · refine (meets_mapM (P := fun _ => True) fun _ _ => ?_).bind fun named _ => meets_ok hsame
    exact (hnode _).bind fun n _ => meets_ok trivial
  · refine (meets_mapError fun _ _ => id).bind fun path _ => ?_
    obtain ⟨g, hg, hids⟩ := exists_addObject
      (o := .store ⟨s.id ++ "InputPath", Workflow.Schedule.id, path⟩) hnew
    simp only [hg]
    exact meets_ok ⟨rfl, rfl, _, List.Sublist.refl _, hids⟩
  · split
    · exact meets_ok hsame
    · exact meets_ok hsame

theorem meets_predecessors {input : Nodes} :
    Meets (fun _ => True) (fun e => ¬ e.IsCollision) (b.predecessors s input) := by
  simp only [Build.predecessors]
  split
  · exact meets_error id
  · exact meets_ok trivial

namespace Named

variable {P' : Tally} {spot : Spot} {c : CompiledStep} {objects : List Object}
  {artifacts : List Step.Artifact}

/-- A step that is to come can be added, and so can a node at its input path before. -/
theorem addStep (hb : Named p P b) (hs : spot.IsProper) (hspot : ¬ spot.position < P spot.origin)
    (hP : ∀ o, P o ≤ P' o) (hspot' : spot.position < P' spot.origin) (hid : s.id = spot.id)
    (hc : c.id = s.id) (hread : Reads p s b b') {endings : List String} (hendings : Apart endings)
    (hobjects : objects.map Object.id = endings.map (s.id ++ ·)) :
    Meets (Named p P') (fun e => ¬ e.IsCollision) (b'.addStep c objects artifacts) := by
  obtain ⟨hsteps, hrecords, added, hadded, hids⟩ := hread
  rw [hid] at hc hadded hobjects
  -- The new ids are among those that the step may need, with or without a node at its input path.
  have hsub : (added ++ objects.map Object.id).Sublist
      (("InputPath" :: endings).map (spot.id ++ ·)) := by
    rw [hobjects]
    exact hadded.append (.refl _)
  have hnodup : (b'.graph.ids ++ objects.map Object.id).Nodup := by
    rw [hids, List.append_assoc]
    exact ((List.Sublist.refl _).append hsub).nodup (hb.nodup_step hs hspot hendings)
  obtain ⟨g, hg⟩ := exists_addAll hnodup
  have hadd : (b'.addStep c objects artifacts).isOk = true := by
    unfold Build.addStep
    rw [hg]
    rfl
  obtain ⟨b₁, hb₁⟩ := exists_ok_of_isOk hadd
  have hnew := Build.addedStep_of_addStep hb₁
  have hrecords₁ (r : Resource) (hr : b.records p r = true) : b₁.records p r = true := by
    rw [hnew.records, hrecords, hr]
  rw [hb₁]
  refine meets_ok ⟨?_, ?_, ?_⟩
  · rw [hnew.steps, hsteps]
    intro t ht
    rcases List.mem_append.mp ht with ht | ht
    · obtain ⟨s, hs, hlt, hid⟩ := hb.steps t ht
      exact ⟨s, hs, Nat.lt_of_lt_of_le hlt (hP _), hid⟩
    · rw [List.mem_singleton.mp ht]
      exact ⟨spot, hs, hspot', hc⟩
  · rw [hnew.steps, hsteps, List.map_append, List.map_singleton, List.nodup_append]
    refine ⟨hb.distinct, List.nodup_singleton _, ?_⟩
    rintro id hmem _ hid' rfl
    obtain ⟨t, ht, rfl⟩ := List.mem_map.mp hmem
    obtain ⟨s, hs', hlt, hts⟩ := hb.steps t ht
    have hsame : s.id = spot.id := by rw [← hts, ← hc, List.mem_singleton.mp hid']
    rw [Spot.id_injOn hs' hs hsame] at hlt
    exact hspot hlt
  · intro id hmem
    rw [Workflow.Graph.ids_of_addAll hnew.objects, hids, List.append_assoc] at hmem
    rcases List.mem_append.mp hmem with hmem | hmem
    · obtain ⟨x, hx, hused, htext⟩ := hb.objects id hmem
      exact ⟨x, hx, used_mono hP hrecords₁ hused, htext⟩
    · obtain ⟨ending, hending, rfl⟩ := List.mem_map.mp (hsub.subset hmem)
      exact ⟨.part spot ending, ⟨hs, hendings.isEnding_of_mem hending⟩, hspot', rfl⟩

theorem place (hb : Named p P b) (hp : p.Unnamed) (hs : p.Plans o (P o) s)
    (htype : p.resolve s.descriptor = .ok type) :
    Meets (Named p (P.advance o)) (fun e => ¬ e.IsCollision) (Build.place p s type b) := by
  obtain ⟨type', htype', hid, hspot⟩ := hp.exists_spot hs
  cases htype.symm.trans htype'
  simp only [Build.place]
  refine (hb.provideWarehouse type.kind).bind fun b₁ hb₁ => ?_
  have hnew : s.id ++ "InputPath" ∉ b₁.graph.ids := by
    rw [hid]
    exact hb₁.not_mem (x := .part ⟨o, type.kind, P o⟩ "InputPath") ⟨hspot, by decide⟩
      (lt_irrefl _)
  refine (meets_resolveInput (p := p) hnew).bind fun read hread => ?_
  obtain ⟨input, b₂⟩ := read
  refine meets_predecessors.bind fun dependsOn _ => ?_
  refine (meets_mapError fun _ _ => id).bind fun e he => ?_
  obtain ⟨endings, hendings, hapart⟩ := hp.exists_endings hs htype he
  have hplaced := Build.ids_placed b₂ s type.kind dependsOn e
  rw [hendings] at hplaced
  exact hb₁.addStep hspot (lt_irrefl _) (P.le_advance o) (P.lt_advance o) hid rfl hread hapart
    hplaced

end Named

theorem keeps_named (hp : p.Unnamed) : Keeps p (Named p) fun e => ¬ e.IsCollision where
  step _ := id
  repeated P b o s hb hs hthere := by
    obtain ⟨type, _, hid, hspot⟩ := hp.exists_spot hs
    obtain ⟨t, ht⟩ := Option.isSome_iff_exists.mp hthere
    obtain ⟨hmem, hsame⟩ := Build.mem_steps_of_step? ht
    obtain ⟨spot, hspot', hlt, htid⟩ := hb.steps t hmem
    rw [htid, hid] at hsame
    rw [Spot.id_injOn hspot' hspot hsame] at hlt
    exact absurd hlt (lt_irrefl _)
  machine _ _ _ hb hm := hb.addMachine hm
  place _ _ _ _ _ hb hs htype := hb.place hp hs htype
  preparation P b m id hb := by
    cases m <;> exact hb.grow rfl (fun _ hr => hr) fun _ hid => .inl hid

/-! ### The first build -/

/-- The build has nothing but what there is one of. -/
structure HasShared (xs : List Shared) (b : Build) : Prop where
  steps : b.steps = []
  ids : b.graph.ids ⊆ xs.map Shared.id

theorem HasShared.named {xs : List Shared} (hb : HasShared xs b)
    (hxs : ∀ x ∈ xs, Used p P b (.shared x)) : Named p P b where
  steps := by
    rw [hb.steps]
    exact fun _ ht => absurd ht List.not_mem_nil
  distinct := by
    rw [hb.steps]
    exact List.nodup_nil
  objects id hid := by
    obtain ⟨x, hx, rfl⟩ := List.mem_map.mp (hb.ids hid)
    exact ⟨.shared x, trivial, hxs x hx, rfl⟩

theorem HasShared.addObject {xs : List Shared} (hb : HasShared xs b) {x : Shared} {o : Object}
    (ho : o.id = x.id) (hx : x ∉ xs) :
    Meets (HasShared (x :: xs)) (fun e => ¬ e.IsCollision) (b.addObject o) := by
  have hnew : o.id ∉ b.graph.ids := by
    intro hmem
    obtain ⟨x', hx', hsame⟩ := List.mem_map.mp (hb.ids hmem)
    exact hx (Shared.id_injective (hsame.trans ho) ▸ hx')
  obtain ⟨g, hg, hids⟩ := exists_addObject hnew
  rw [hg]
  refine meets_ok ⟨hb.steps, ?_⟩
  show g.ids ⊆ _
  rw [hids, ho]
  exact List.append_subset.mpr ⟨List.subset_cons_of_subset _ hb.ids,
    Sequence.singleton_subset List.mem_cons_self⟩

/-- The objects that every pipeline has get different ids. -/
theorem meets_base {start : Time.Instant} :
    Meets (Named p fun _ => 0) (fun e => ¬ e.IsCollision) (Compiler.base p start) := by
  have hempty : HasShared [] ({} : Build) := ⟨rfl, List.nil_subset _⟩
  have hdefaults {b : Build} (hb : HasShared [.alarm, .schedule] b) (defaults : Workflow.Defaults) :
      Meets (Named p fun _ => 0) (fun e => ¬ e.IsCollision) (b.addObject (.defaults defaults)) := by
    refine (hb.addObject (x := .defaults) rfl (by decide)).imp_ok fun b _ hb => hb.named ?_
    intro x hx
    rcases x with _ | _ | _ | r
    · trivial
    · trivial
    · trivial
    · simp at hx
  simp only [Compiler.base]
  refine (hempty.addObject (x := .schedule) rfl List.not_mem_nil).bind fun b hb => ?_
  split
  · refine (meets_mapError fun _ _ => id).bind fun _ _ => ?_
    refine (hb.addObject (x := .alarm) rfl (by decide)).bind fun b hb => ?_
    refine (meets_mapError fun _ _ => id).bind fun _ _ => ?_
    exact (meets_mapError fun _ _ => id).bind fun _ _ => hdefaults hb _
  · refine (meets_ok (P := HasShared [.alarm, .schedule]) (a := b)
      ⟨hb.steps, List.subset_cons_of_subset _ hb.ids⟩).bind fun b hb => ?_
    refine (meets_mapError fun _ _ => id).bind fun _ _ => ?_
    exact (meets_mapError fun _ _ => id).bind fun _ _ => hdefaults hb _

/-- No step is there yet when the start is looked for. -/
theorem meets_firstStart {frequency : Workflow.Frequency} {loadTime : Option LoadTime}
    {default : String} {delta : Option String} {now : Time.Instant} :
    Meets (fun _ => True) (fun e => ∀ id, e ≠ .repeatedStep id)
      (firstStart frequency loadTime default delta now) := by
  have htime (t : LoadTime) :
      Meets (fun _ => True) (fun e => ∀ id, e ≠ .repeatedStep id) t.timeOfDay := by
    cases t with
    | minutes n => exact meets_ok trivial
    | clock text =>
        simp only [LoadTime.timeOfDay, TimeOfDay.parse]
        cases TimeOfDay.ofText? text with
        | some t => exact meets_ok trivial
        | none => exact meets_error (by simp)
  have hslot : Meets (fun _ => True) (fun e => ∀ id, e ≠ .repeatedStep id)
      (slot frequency loadTime default now) := by
    cases frequency with
    | oneTime => exact meets_ok trivial
    | _ =>
        simp only [slot]
        refine (htime _).bind fun _ _ => ?_
        exact meets_ok trivial
  have hshift (delta : String) :
      Meets (fun _ => True) (fun e => ∀ id, e ≠ .repeatedStep id) (parseShift delta) := by
    simp only [parseShift]
    split
    · split
      · exact meets_ok trivial
      · exact meets_error (by simp)
    · exact meets_error (by simp)
  refine hslot.bind fun start _ => ?_
  cases delta with
  | none => exact meets_ok trivial
  | some delta =>
      refine (hshift delta).bind fun seconds _ => ?_
      split
      · exact meets_ok trivial
      · exact meets_error (by simp)

namespace Compiler

variable {c : Compiler} {d : Definition}

/-- The ids of the pipeline are made up, and no two of its steps, nor of its objects, have one id. -/
structure MadeUpIds (pl : Pipeline) : Prop where
  steps : ∃ spots : List Spot, spots.Nodup ∧ (∀ s ∈ spots, s.IsProper) ∧
    pl.steps.map CompiledStep.id = spots.map Spot.id
  objects : ∃ xs : List MadeUp, xs.Nodup ∧ (∀ x ∈ xs, x.IsProper) ∧
    pl.graph.ids = xs.map MadeUp.text

/-- Distinct ids that are made up for something are made up for distinct things. -/
theorem exists_madeUp {α β : Type} {f : α → β} {S : α → Prop} {ids : List β} (hids : ids.Nodup)
    (h : ∀ id ∈ ids, ∃ x, S x ∧ id = f x) :
    ∃ xs : List α, xs.Nodup ∧ (∀ x ∈ xs, S x) ∧ ids = xs.map f := by
  induction ids with
  | nil => exact ⟨[], List.nodup_nil, fun _ hx => absurd hx List.not_mem_nil, rfl⟩
  | cons id ids ih =>
      obtain ⟨x, hx, rfl⟩ := h id List.mem_cons_self
      obtain ⟨xs, _, hxs, rfl⟩ :=
        ih (List.nodup_cons.mp hids).2 fun id hid => h id (List.mem_cons_of_mem _ hid)
      rw [← List.map_cons] at hids ⊢
      exact ⟨x :: xs, hids.of_map f, List.forall_mem_cons.mpr ⟨hx, hxs⟩, rfl⟩

/-- A plan whose steps have no names comes to no collision. -/
theorem meets_compileDefinition (hp : ∀ p, c.plan d = .ok p → p.Unnamed) :
    Meets MadeUpIds (fun e => ¬ e.IsCollision) (c.compileDefinition d) := by
  have hplan : Meets (fun p => c.plan d = .ok p) (fun e => ¬ e.IsCollision) (c.plan d) := by
    have hpaths : Meets (fun _ => True) (fun e => ¬ e.IsCollision) (c.plan d) :=
      (meets_mapError fun _ _ => id).bind fun _ _ => meets_ok trivial
    exact hpaths.imp_ok fun p hplan _ => hplan
  refine hplan.bind fun p hplan => ?_
  refine (meets_mapError fun e he => ?_).bind fun start _ => ?_
  · cases e with
    | repeatedStep id => exact absurd rfl (meets_firstStart.2 _ he id)
    | _ => exact id
  have hbuild : Meets (fun b => build p start = .ok b ∧ ∃ P, Named p P b)
      (fun e => ¬ e.IsCollision) (build p start) :=
    ((keeps_named (hp p hplan)).build meets_base).imp_ok fun b hb ⟨P, hnamed, _⟩ => ⟨hb, P, hnamed⟩
  refine hbuild.bind fun b hb => ?_
  obtain ⟨hb, P, hnamed⟩ := hb
  rw [reduce_eq_ok (grounded_build hb).graph]
  have hids : b.graph.reduced.ids = b.graph.ids := by
    rw [Workflow.Graph.ids, Workflow.Graph.objects_reduced, List.map_map]
    exact List.map_congr_left fun o _ =>
      Object.id_mapActivity (fun a => Activity.id_setDependencies a _) o
  refine meets_ok ⟨exists_madeUp hnamed.distinct fun id hid => ?_,
    exists_madeUp b.graph.reduced.nodup_ids fun id hid => ?_⟩
  · obtain ⟨t, ht, rfl⟩ := List.mem_map.mp hid
    obtain ⟨spot, hspot, _, hid⟩ := hnamed.steps t ht
    exact ⟨spot, hspot, hid⟩
  · obtain ⟨x, hx, _, htext⟩ := hnamed.objects id (hids ▸ hid)
    exact ⟨x, hx, htext⟩

/-- Ids that are made up never collide: each tells what it is made up for.  Where no step has a name
and no command names an output twice, nothing fails because an id is to be given twice, unless a hook
says so, and the ids of a compiled pipeline are made up and distinct. -/
theorem made_up_ids (hp : ∀ d' p, runHooks c.settings c.hooks.before d = .ok d' →
    c.plan d' = .ok p → p.Unnamed) :
    Set.InjOn MadeUp.text {x | x.IsProper} ∧
      (∀ e, c.compile d = .error e → e.IsCollision →
        runHooks c.settings c.hooks.before d = .error e ∨
          ∃ d' pl, runHooks c.settings c.hooks.before d = .ok d' ∧
            c.compileDefinition d' = .ok pl ∧ runHooks c.settings c.hooks.after pl = .error e) ∧
      ∀ d' pl, runHooks c.settings c.hooks.before d = .ok d' → c.compileDefinition d' = .ok pl →
        MadeUpIds pl := by
  refine ⟨MadeUp.text_injOn, fun e he hcollision => ?_, fun d' pl hd' hpl => ?_⟩
  · rcases bind_eq_error_iff.mp he with he | ⟨d', hd', he⟩
    · exact .inl he
    · rcases bind_eq_error_iff.mp he with he | ⟨pl, hpl, he⟩
      · exact absurd hcollision ((meets_compileDefinition fun p hplan => hp d' p hd' hplan).2 e he)
      · exact .inr ⟨d', pl, hd', hpl, he⟩
  · exact (meets_compileDefinition fun p hplan => hp d' p hd' hplan).1 pl hpl

/-- A directory, a command that splits it on a machine that another one prepares, and a teardown. -/
def unnamed : Definition where
  name := "unnamed"
  frequency := .oneTime
  steps := [
    { stepType := "extract-s3"
      arguments := [(.string "directory_uri", .string "s3://landing/raw/")] },
    { stepType := "transform"
      arguments := [(.string "command", .string "split"),
        (.string "output_node", .sequence [.string "left", .string "right"])] }]
  bootstrap := some {
    ec2 := [.mapping [(.string "step_type", .string "transform"),
      (.string "command", .string "pip"), (.string "no_input", .bool true)]]
    emr := [] }
  teardown := some {
    stepType := "transform"
    arguments := [(.string "command", .string "rm"), (.string "no_output", .bool true)] }

theorem made_up_ids_unnamed :
    ∃ pl, sample.compile unnamed = .ok pl ∧ MadeUpIds pl ∧ pl.steps.map CompiledStep.id =
      ["ExtractS3Step0", "BootstrapEc2TransformStep0", "TransformStep1",
        "TeardownTransformStep"] := by
  have hview : (sample.built unnamed).toOption.map (fun b => b.steps.map CompiledStep.id) =
      some ["ExtractS3Step0", "BootstrapEc2TransformStep0", "TransformStep1",
        "TeardownTransformStep"] := by decide +kernel
  have hunnamed : ((sample.plan unnamed).toOption.all fun p => decide p.Unnamed) = true := by
    decide +kernel
  obtain ⟨pl, hpl, hids⟩ := compile_of_steps hview
  obtain ⟨_, _, hmadeUp⟩ := made_up_ids (c := sample) (d := unnamed) fun d' p hd' hp => by
    cases hd'
    rw [hp] at hunnamed
    exact of_decide_eq_true hunnamed
  have hdefinition := (compile_withoutHooks sample unnamed).symm.trans hpl
  exact ⟨pl, hpl, hmadeUp unnamed pl rfl hdefinition, hids⟩

end Compiler

end EtlFlow.Pipeline
