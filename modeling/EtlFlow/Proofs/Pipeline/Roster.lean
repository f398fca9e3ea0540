import EtlFlow.Proofs.Pipeline.Demand
import Mathlib.Data.List.Induction
/-!
# The steps of a pipeline

The activities of the compiled steps are those of the graph, in their order.  Apart from the steps
that prepare machines, the compiled steps are those of the definition, in their order, and the
teardown at the end.  All steps that prepare a machine stand before the others that run on it
(`steps_account_for_graph`).  Ids are checked before the machine of a step is prepared, so a step
can have the id of one that comes with its machine (`not_nodup_ids_twins`), and only of such a one.
-/

namespace EtlFlow.Pipeline

open Outcome
open Sequence (AtEach)
open Step (Machine Descriptor)
open Workflow (Activity)

/-- The step that the description at a position of a definition comes to. -/
def Plan.Compiles (p : Plan) (entry : Descriptor × ℕ) (s : CompiledStep) : Prop :=
  ∃ type, p.stepId "" entry.1 entry.2 = .ok s.id ∧ p.resolve entry.1 = .ok type ∧
    s.kind = type.kind

namespace Build

variable {p : Plan} {b b' : Build} {m : Machine} {s : PlannedStep} {type : Step.StepType}
  {prepared : Machine → List CompiledStep} {pending : List Machine} {steps : List CompiledStep}

/-! ### Steps by role -/

/-- Among steps that prepare machines is none of the definition. -/
theorem filter_step_eq_nil (h : ∀ s ∈ steps, s.role = .bootstrap) :
    steps.filter (·.role = .step) = [] := by
  rw [List.filter_eq_nil_iff]
  intro s hs
  simp [h s hs]

/-- Only a step that prepares a machine can share its id with a later one. -/
theorem nodup_ids_of_entered (h : AtEach Entered steps) :
    ((steps.filter (·.role ≠ .bootstrap)).map CompiledStep.id).Nodup := by
  induction steps using List.reverseRecOn with
  | nil => exact List.nodup_nil
  | append_singleton steps t ih =>
      obtain ⟨hsteps, before, brought, rfl, hid, hrole, _⟩ := Sequence.atEach_append_singleton.mp h
      have hbrought : brought.filter (·.role ≠ .bootstrap) = [] := by
        rw [List.filter_eq_nil_iff]
        intro s hs
        simpa using hrole s hs
      have hlast : ([t].filter (·.role ≠ .bootstrap)).Sublist [t] := List.filter_sublist
      rw [List.filter_append, List.map_append, List.nodup_append]
      refine ⟨ih hsteps, (List.nodup_singleton t.id).sublist (hlast.map _), ?_⟩
      rintro id hfront _ hback rfl
      rw [List.mem_singleton.mp ((hlast.map CompiledStep.id).subset hback), List.filter_append,
        hbrought, List.append_nil] at hfront
      exact hid ((List.filter_sublist.map CompiledStep.id).subset hfront)

/-! ### The steps of the definition -/

/-- The steps of a role. -/
theorem filter_step_of_expand (hb : b.Settled) (hrole : s.role = .step)
    (h : expand p s b = .ok b') :
    ∃ c type, b'.steps.filter (·.role = .step) = b.steps.filter (·.role = .step) ++ [c] ∧
      c.id = s.id ∧ p.resolve s.descriptor = .ok type ∧ c.kind = type.kind := by
  simp only [expand, expandWith, guard_eq_ok_iff, bind_eq_ok_iff] at h
  obtain ⟨_, type, htype, b₁, h₁, hplace⟩ := h
  obtain ⟨new, hnew, hbootstrap⟩ := (prepares_prepare hb h₁).1.steps
  obtain ⟨c, hc, hid, hcrole, hkind⟩ := steps_of_place hplace
  refine ⟨c, type, ?_, hid, htype, hkind⟩
  rw [hc, hnew, List.filter_append, List.filter_append, filter_step_eq_nil hbootstrap,
    List.append_nil, List.filter_cons_of_pos (by simp [hcrole, hrole]), List.filter_nil]

/-- By induction on the definition: each description comes to one more step. -/
theorem compiles_expandSteps {ds : List Descriptor} {position : ℕ} (hb : b.Settled)
    (h : expandSteps p position ds b = .ok b') :
    ∃ new, b'.steps.filter (·.role = .step) = b.steps.filter (·.role = .step) ++ new ∧
      List.Forall₂ p.Compiles (ds.zipIdx position) new := by
  induction ds generalizing position b with
  | nil =>
      cases h
      exact ⟨[], (List.append_nil _).symm, .nil⟩
  | cons d ds ih =>
      simp only [expandSteps, bind_eq_ok_iff] at h
      obtain ⟨id, hid, b₁, h₁, h⟩ := h
      obtain ⟨c, type, hc, rfl, htype, hkind⟩ := filter_step_of_expand hb rfl h₁
      obtain ⟨new, hnew, hcompiles⟩ := ih (run_expand hb rfl rfl h₁).2 h
      refine ⟨c :: new, ?_, ?_⟩
      · rw [hnew, hc, List.append_assoc, List.singleton_append]
      · rw [List.zipIdx_cons]
        exact .cons ⟨type, hid, htype, hkind⟩ hcompiles

/-- The end of a build adds no step of the definition. -/
theorem filter_step_of_expandTeardown (hb : b.Settled) (h : expandTeardown p b = .ok b') :
    b'.steps.filter (·.role = .step) = b.steps.filter (·.role = .step) := by
  simp only [expandTeardown, bind_eq_ok_iff] at h
  obtain ⟨t, _, h⟩ := h
  cases t with
  | none =>
      cases h
      rfl
  | some d =>
      simp only [expand, expandWith, guard_eq_ok_iff, bind_eq_ok_iff] at h
      obtain ⟨type, _, b₁, h₁, _, type', _, b₂, h₂, hplace⟩ := h
      have hb₁ := (prepares_prepare hb h₁).1
      have hb₂ := (prepares_prepare (hb₁.settled hb) h₂).1
      obtain ⟨new, hnew, hbootstrap⟩ := (hb₁.trans hb₂).steps
      obtain ⟨c, hc, _, hcrole, _⟩ := steps_of_place hplace
      rw [hc, hnew, List.filter_append, List.filter_append, filter_step_eq_nil hbootstrap,
        List.append_nil, List.filter_cons_of_neg (by simp [hcrole]), List.filter_nil,
        List.append_nil]

/-! ### Machines before work -/

/-- Before each step of another role stand all steps that prepare its machine. -/
def Ahead (prepared : Machine → List CompiledStep) (steps : List CompiledStep) : Prop :=
  AtEach (fun front t => t.role ≠ .bootstrap → (prepared t.kind.machine).Subperm front) steps

/-- The steps that prepare a machine are steps. -/
theorem PreparedBy.subperm (hb : b.PreparedBy prepared) (hm : m ≠ .none) :
    (prepared m).Subperm b.steps := by
  have hpart : (prepared m).Subperm (prepared .ec2 ++ prepared .emr) := by
    cases m with
    | ec2 => exact (List.sublist_append_left _ _).subperm
    | emr => exact (List.sublist_append_right _ _).subperm
    | none => exact absurd rfl hm
  exact (hpart.trans hb.bootstrap.symm.subperm).trans List.filter_sublist.subperm

theorem Whole.subperm (hb : b.Whole p prepared) (m : Machine) : (prepared m).Subperm b.steps := by
  by_cases hm : m = .none
  · rw [hm, hb.prepared_none]
    exact List.nil_subperm
  · exact hb.toPreparedBy.subperm hm

/-- The machines of earlier steps are prepared already, and the steps that come in prepare
machines. -/
theorem ahead_prepare (hb : b.Whole p prepared) (hahead : Ahead prepared b.steps)
    (hsupplied : b.Supplied pending) (h : prepare p machines m b = .ok b') :
    ∃ prepared', b'.Whole p prepared' ∧ Ahead prepared' b'.steps := by
  obtain ⟨prepared', hb', hunfolds⟩ := whole_prepare hb h
  obtain ⟨new, hnew, hbootstrap⟩ := (prepares_prepare hsupplied.settled h).1.steps
  refine ⟨prepared', hb', ?_⟩
  rw [hnew]
  refine Sequence.AtEach.append (hahead.imp ?_) ?_
  · intro front t ht hfront hrole
    rw [((hunfolds t.kind.machine).eq_of_isReady (hsupplied.equipped t ht)).2]
    exact hfront hrole
  · intro front t ht hrole
    exact absurd (hbootstrap t ht) hrole

theorem ahead_place (hb : b.Whole p prepared) (hahead : Ahead prepared b.steps)
    (h : place p s type b = .ok b') : Ahead prepared b'.steps := by
  obtain ⟨c, hc, _, _, _⟩ := steps_of_place h
  rw [hc]
  exact Sequence.atEach_append_singleton.mpr ⟨hahead, fun _ => hb.subperm _⟩

theorem ahead_expand (hb : b.Whole p prepared) (hahead : Ahead prepared b.steps)
    (hsupplied : b.Supplied pending) (hrole : s.role ≠ .bootstrap) (h : expand p s b = .ok b') :
    ∃ prepared', b'.Whole p prepared' ∧ Ahead prepared' b'.steps := by
  simp only [expand, expandWith, guard_eq_ok_iff, bind_eq_ok_iff] at h
  obtain ⟨_, type, _, b₁, h₁, hplace⟩ := h
  obtain ⟨prepared', hb₁, hahead₁⟩ := ahead_prepare hb hahead hsupplied h₁
  exact ⟨prepared', hb₁.place hrole hplace, ahead_place hb₁ hahead₁ hplace⟩

theorem ahead_expandSteps {ds : List Descriptor} {position : ℕ} (hb : b.Whole p prepared)
    (hahead : Ahead prepared b.steps) (hsupplied : b.Supplied pending)
    (h : expandSteps p position ds b = .ok b') :
    ∃ prepared', b'.Whole p prepared' ∧ Ahead prepared' b'.steps := by
  induction ds generalizing position b prepared with
  | nil =>
      cases h
      exact ⟨prepared, hb, hahead⟩
  | cons d ds ih =>
      simp only [expandSteps, bind_eq_ok_iff] at h
      obtain ⟨id, _, b₁, h₁, h⟩ := h
      obtain ⟨prepared₁, hb₁, hahead₁⟩ := ahead_expand hb hahead hsupplied (by simp) h₁
      exact ih hb₁ hahead₁ (supplied_expandWith (supplies machines) hsupplied b.missing_le h₁) h

theorem ahead_expandTeardown (hb : b.Whole p prepared) (hahead : Ahead prepared b.steps)
    (hsupplied : b.Supplied pending) (h : expandTeardown p b = .ok b') :
    ∃ prepared', b'.Whole p prepared' ∧ Ahead prepared' b'.steps := by
  simp only [expandTeardown, bind_eq_ok_iff] at h
  obtain ⟨t, _, h⟩ := h
  cases t with
  | none =>
      cases h
      exact ⟨prepared, hb, hahead⟩
  | some d =>
      simp only [bind_eq_ok_iff] at h
      obtain ⟨type, _, b₁, h₁, h⟩ := h
      obtain ⟨prepared₁, hb₁, hahead₁⟩ := ahead_prepare hb hahead hsupplied h₁
      have hsupplied₁ := (supplies machines _ _ _ _ hsupplied b.missing_le h₁).1
      exact ahead_expand hb₁ hahead₁ hsupplied₁ (by simp) h

end Build

variable {p : Plan} {start : Time.Instant} {b : Build}

theorem compiles_build (h : Compiler.build p start = .ok b) :
    List.Forall₂ p.Compiles p.definition.steps.zipIdx (b.steps.filter (·.role = .step)) := by
  simp only [Compiler.build, bind_eq_ok_iff] at h
  obtain ⟨b₀, h₀, b₁, h₁, h⟩ := h
  have hsettled := settled_base h₀
  have hsteps : b₀.steps = [] := by
    obtain ⟨_, _, _, _, rfl, _⟩ := base_spec h₀
    rfl
  obtain ⟨new, hnew, hcompiles⟩ := Build.compiles_expandSteps hsettled h₁
  rw [Build.filter_step_of_expandTeardown (Build.run_expandSteps hsettled h₁).2 h, hnew, hsteps]
  exact hcompiles

theorem ahead_build (h : Compiler.build p start = .ok b) :
    ∃ prepared, b.Whole p prepared ∧ Build.Ahead prepared b.steps := by
  simp only [Compiler.build, bind_eq_ok_iff] at h
  obtain ⟨b₀, h₀, b₁, h₁, h⟩ := h
  have hsupplied₀ := supplied_base h₀
  have hahead₀ : Build.Ahead (fun _ => []) b₀.steps := by
    obtain ⟨_, _, _, _, rfl, _⟩ := base_spec h₀
    exact Sequence.atEach_nil
  obtain ⟨prepared₁, hb₁, hahead₁⟩ :=
    Build.ahead_expandSteps (whole_base h₀) hahead₀ hsupplied₀ h₁
  exact Build.ahead_expandTeardown hb₁ hahead₁ (Build.supplied_expandSteps hsupplied₀ h₁) h

/-- A teardown is the last step, and no other step has its id. -/
theorem teardown_build (h : Compiler.build p start = .ok b) {front back : List CompiledStep}
    {t : CompiledStep} (hsteps : b.steps = front ++ t :: back) (hrole : t.role = .teardown) :
    back = [] ∧ t.id ∉ front.map CompiledStep.id := by
  obtain ⟨b₀, b₁, h₀, hrun, hends⟩ := build_run h
  have hother : ∀ s ∈ b₁.steps, s.role ≠ .teardown := by
    apply Build.role_ne_teardown_of_run hrun
    obtain ⟨_, _, _, _, rfl, _⟩ := base_spec h₀
    exact List.forall_mem_nil _
  cases hends with
  | without _ =>
      refine absurd hrole (hother t ?_)
      rw [hsteps]
      exact List.mem_append_right _ List.mem_cons_self
  | teardown _ hnew hplace =>
      obtain ⟨c, hc, hid, _, _⟩ := Build.steps_of_place hplace
      rw [hsteps] at hc
      rcases List.eq_nil_or_concat back with rfl | ⟨back, u, rfl⟩
      · obtain ⟨rfl, ht⟩ := List.append_inj' hc rfl
        cases ht
        refine ⟨rfl, ?_⟩
        rw [hid]
        exact Build.not_mem_ids_of_step? hnew
      · rw [List.concat_eq_append, ← List.cons_append, ← List.append_assoc] at hc
        refine absurd hrole (hother t ?_)
        rw [← (List.append_inj' hc rfl).1]
        exact List.mem_append_right _ List.mem_cons_self

namespace Compiler

variable {c : Compiler} {d : Definition} {pl : Pipeline}

/-- The activities of the compiled steps are those of the graph in their order, each one once.  The
steps of the definition are compiled one by one in their order, a teardown is the last step, and
before each step of these two roles stand all steps that prepare the machine that it runs on.  The
ids of these steps are distinct.  No step has the id of an earlier one, unless that prepares a
machine and comes in with the machine of the step, on which no step before it runs. -/
theorem steps_account_for_graph (h : c.withoutHooks.compile d = .ok pl) :
    pl.steps.flatMap CompiledStep.activities = pl.graph.activities.map Activity.id ∧
      (pl.graph.activities.map Activity.id).Nodup ∧
      ((pl.steps.filter (·.role ≠ .bootstrap)).map CompiledStep.id).Nodup ∧
      (∀ front t back, pl.steps = front ++ t :: back → Build.Entered front t ∧
        (t.role = .teardown → back = [] ∧ t.id ∉ front.map CompiledStep.id)) ∧
      ∃ p, c.plan d = .ok p ∧
        List.Forall₂ p.Compiles d.steps.zipIdx (pl.steps.filter (·.role = .step)) ∧
        ∃ prepared, PreparedOnDemand p pl.steps prepared ∧
          ∀ front t back, pl.steps = front ++ t :: back → t.role ≠ .bootstrap →
            (prepared t.kind.machine).Subperm front := by
  rw [compile_withoutHooks] at h
  obtain ⟨b, hb, hgraph, hsteps⟩ := compileDefinition_cases h
  obtain ⟨p, hp, start, _, hbuild⟩ := built_eq_ok_iff.mp hb
  have hentered := (supplied_build hbuild).entered
  have hactivities : pl.graph.activities.map Activity.id = b.graph.activities.map Activity.id := by
    rw [hgraph, Workflow.Graph.activities_reduced, Dependency.Dag.ids_withReduced]
  rw [hsteps, hactivities]
  refine ⟨(accounted_built hb).activities.symm, Workflow.Graph.nodup_activityIds,
    Build.nodup_ids_of_entered hentered, ?_, p, hp, ?_, ?_⟩
  · intro front t back hsplit
    exact ⟨hentered front t back hsplit, teardown_build hbuild hsplit⟩
  · rw [← (plan_cases hp).1]
    exact compiles_build hbuild
  · obtain ⟨prepared, hwhole, hahead⟩ := ahead_build hbuild
    exact ⟨prepared, preparedOnDemand_of_whole hwhole (supplied_build hbuild), hahead⟩

theorem steps_account_for_graph_clicks :
    ∃ pl p, sample.withoutHooks.compile clicks = .ok pl ∧ sample.plan clicks = .ok p ∧
      pl.steps.flatMap CompiledStep.activities = pl.graph.activities.map Activity.id ∧
      ((pl.steps.filter (·.role ≠ .bootstrap)).map CompiledStep.id).Nodup ∧
      List.Forall₂ p.Compiles clicks.steps.zipIdx (pl.steps.filter (·.role = .step)) ∧
      ∃ front t, pl.steps = front ++ [t] ∧ t.role = .teardown ∧
        t.id ∉ front.map CompiledStep.id := by
  have hroles : (sample.built clicks).toOption.map (fun b => b.steps.map CompiledStep.role) =
      some ([.step, .step, .step] ++ [.teardown]) := by decide +kernel
  obtain ⟨pl, hpl, hroles⟩ := compile_of_steps hroles
  obtain ⟨hactivities, _, hids, heach, p, hp, hcompiles, _⟩ := steps_account_for_graph hpl
  obtain ⟨front, last, hsplit, _, hlast⟩ := List.map_eq_append_iff.mp hroles
  obtain ⟨t, rfl, hrole⟩ := List.map_eq_singleton_iff.mp hlast
  exact ⟨pl, p, hpl, hp, hactivities, hids, hcompiles, front, t, hsplit, hrole,
    ((heach front t [] hsplit).2 hrole).2⟩

/-! ### Two steps of one id -/

/-- A step whose machine is prepared by a step of the same name. -/
def twins : Definition where
  name := "twins"
  frequency := .oneTime
  steps := [{ stepType := "transform", name := some "X", arguments := [(.string "command", .string "date"),
    (.string "no_input", .bool true), (.string "no_output", .bool true)] }]
  bootstrap := some {
    ec2 := [described "extract-s3" "X" [("directory_uri", .string "s3://landing/x/")]]
    emr := [] }

/-- The id of the step is checked when its machine is not prepared yet, and then both are placed. -/
theorem not_nodup_ids_twins :
    ∃ pl, sample.withoutHooks.compile twins = .ok pl ∧
      ¬ (pl.steps.map CompiledStep.id).Nodup := by
  have hids : (sample.built twins).toOption.map (fun b => b.steps.map CompiledStep.id) =
      some ["X", "X"] := by decide +kernel
  obtain ⟨pl, hpl, hids⟩ := compile_of_steps hids
  refine ⟨pl, hpl, ?_⟩
  rw [hids]
  decide

end Compiler

end EtlFlow.Pipeline
