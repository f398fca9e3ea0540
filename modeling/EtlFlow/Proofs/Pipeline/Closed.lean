import EtlFlow.Proofs.Pipeline.Failure
import EtlFlow.Proofs.Pipeline.Grounded
/-!
# Compiled pipelines are closed

A definition is compiled exactly when its steps can be built.  The records of the pipeline then have
distinct ids and refer to earlier records only, and where the steps cannot be built the error is an
early one (`compile_closed`).
-/

namespace EtlFlow.Pipeline

open Outcome
open Workflow (Object ObjectId Activity Record FieldValue)

/-! ### Builds are grounded -/

/-- The defaults come last and refer to the schedule, and to the alarm if there is one. -/
theorem grounded_base {p : Plan} {start : Time.Instant} {b : Build}
    (h : Compiler.base p start = .ok b) :
    Build.Grounded p b := by
  obtain ⟨s, d, g, alarm, rfl, hobjects, halarm, hschedule, honFail, _⟩ := base_spec h
  have hids : g.ids = Workflow.Schedule.id ::
      (alarm.toList.map (fun _ => Workflow.Alarm.id) ++ [Workflow.Defaults.id]) := by
    unfold Workflow.Graph.ids
    rw [hobjects, List.map_cons, List.map_append, List.map_map]
    rfl
  have hwork : g.activities = [] := by
    unfold Workflow.Graph.activities
    rw [hobjects]
    cases alarm <;> rfl
  refine ⟨⟨?_, ?_⟩, ?_, ?_, ?_, nofun, ?_, List.nil_subset _, ?_, ?_⟩
  · rw [hobjects]
    cases alarm with
    | none =>
        have htopic : p.topic = none := by simpa using halarm.symm
        rw [htopic] at honFail
        refine ⟨?_, ?_, trivial⟩
        · rw [Object.targets_schedule]
          exact List.nil_subset _
        · rw [Object.targets_defaults, hschedule, honFail]
          exact Sequence.singleton_subset List.mem_cons_self
    | some alarm =>
        obtain ⟨topic, htopic⟩ := Option.isSome_iff_exists.mp halarm.symm
        rw [htopic] at honFail
        refine ⟨?_, ?_, ?_, trivial⟩
        · rw [Object.targets_schedule]
          exact List.nil_subset _
        · rw [Object.targets_alarm]
          exact List.nil_subset _
        · rw [Object.targets_defaults, hschedule, honFail]
          refine List.cons_subset.mpr ⟨List.mem_cons_of_mem _ List.mem_cons_self, ?_⟩
          exact Sequence.singleton_subset List.mem_cons_self
  · rw [hwork]
    trivial
  · rw [hids]
    exact List.mem_cons_self
  · intro htopic
    rw [← halarm] at htopic
    obtain ⟨alarm', rfl⟩ := Option.isSome_iff_exists.mp htopic
    rw [hids]
    exact List.mem_cons_of_mem _ List.mem_cons_self
  · rintro (_ | _ | _) r id hr <;> cases hr
  · exact fun n hn => absurd hn List.not_mem_nil
  · exact fun s hs => absurd hs List.not_mem_nil
  · rintro (_ | _ | _) <;> exact List.nil_subset _

theorem grounded_build {p : Plan} {start : Time.Instant} {b : Build}
    (h : Compiler.build p start = .ok b) :
    Build.Grounded p b := by
  obtain ⟨b₀, b₁, h₀, hrun, hends⟩ := build_run h
  have hb₁ := (grounded_base h₀).run hrun
  cases hends with
  | without _ => exact hb₁
  | teardown _ _ hplace => exact hb₁.place hplace

namespace Compiler

variable {c : Compiler} {d : Definition} {pl : Pipeline}

/-! ### Compiling is building -/

/-- The reduction of a grounded graph succeeds. -/
theorem reduce_eq_ok {g : Workflow.Graph} (hg : g.Grounded) : reduce g = .ok g.reduced := by
  have hcheck : (g.setDependencies fun a => g.dag.reduced a.id).checkReferences = .ok () :=
    hg.reduced.checkReferences
  unfold reduce
  rw [hg.ofActivities]
  simp only [Except.mapError, bind, Except.bind, hcheck]
  rfl

/-- What the steps of a definition come to. -/
def built (c : Compiler) (d : Definition) : Except Error Build := do
  let p ← c.plan d
  let start ← (firstStart d.frequency d.loadTime c.settings.etl.dailyLoadTime d.delta c.now).mapError
    .input
  build p start

theorem built_eq_ok_iff {b : Build} :
    c.built d = .ok b ↔ ∃ p, c.plan d = .ok p ∧ ∃ start,
      firstStart d.frequency d.loadTime c.settings.etl.dailyLoadTime d.delta c.now = .ok start ∧
        build p start = .ok b := by
  simp only [built, bind_eq_ok_iff, mapError_eq_ok_iff]

theorem grounded_built {b : Build} (h : c.built d = .ok b) : b.graph.Grounded := by
  obtain ⟨p, _, start, _, h⟩ := built_eq_ok_iff.mp h
  exact (grounded_build h).graph

/-- A compiled pipeline has the steps of the build, and its graph reduced. -/
theorem compileDefinition_cases (h : c.compileDefinition d = .ok pl) :
    ∃ b, c.built d = .ok b ∧ pl.graph = b.graph.reduced ∧ pl.steps = b.steps := by
  simp only [compileDefinition, bind_eq_ok_iff, mapError_eq_ok_iff, pure_eq_ok_iff] at h
  obtain ⟨p, hp, start, hstart, b, hb, g, hg, rfl⟩ := h
  rw [reduce_eq_ok (grounded_build hb).graph] at hg
  cases hg
  exact ⟨b, built_eq_ok_iff.mpr ⟨p, hp, start, hstart, hb⟩, rfl, rfl⟩

theorem exists_compileDefinition {b : Build} (h : c.built d = .ok b) :
    ∃ pl, c.compileDefinition d = .ok pl := by
  obtain ⟨p, hp, start, hstart, hb⟩ := built_eq_ok_iff.mp h
  unfold compileDefinition
  simp only [bind_eq_ok_iff, mapError_eq_ok_iff, pure_eq_ok_iff]
  exact ⟨_, p, hp, start, hstart, b, hb, _, reduce_eq_ok (grounded_build hb).graph, rfl⟩

theorem failsEarly_compileDefinition : FailsEarly (c.compileDefinition d) := by
  have hplan : FailsEarly (c.plan d) :=
    FailsEarly.bind (failsEarly_mapError fun _ _ => trivial) fun _ _ => failsEarly_pure
  refine hplan.bind fun p _ => ?_
  refine FailsEarly.bind (failsEarly_mapError fun _ _ => trivial) fun start _ => ?_
  refine failsEarly_build.bind fun b hb => ?_
  rw [reduce_eq_ok (grounded_build hb).graph]
  exact failsEarly_pure

/-- The compiler without its hooks. -/
def withoutHooks (c : Compiler) : Compiler := { c with hooks := {} }

theorem compile_withoutHooks (c : Compiler) (d : Definition) :
    c.withoutHooks.compile d = c.compileDefinition d := by
  show (c.compileDefinition d >>= fun pl => .ok pl) = c.compileDefinition d
  cases c.compileDefinition d <;> rfl

/-- What can be read off the steps that a definition comes to. -/
theorem compile_of_steps {β : Type} {f : List CompiledStep → β} {v : β}
    (h : (c.built d).toOption.map (fun b => f b.steps) = some v) :
    ∃ pl, c.withoutHooks.compile d = .ok pl ∧ f pl.steps = v := by
  obtain ⟨b, hb, rfl⟩ := exists_ok_of_map_toOption h
  obtain ⟨pl, hpl⟩ := exists_compileDefinition hb
  obtain ⟨b', hb', _, hsteps⟩ := compileDefinition_cases hpl
  rw [hb] at hb'
  cases hb'
  exact ⟨pl, (compile_withoutHooks c d).trans hpl, congrArg f hsteps⟩

/-! ### Closed pipelines -/

/-- The records of a compiled pipeline have distinct ids, and each reference of a record names an
earlier record.  A definition that is not compiled fails with an early error, because its steps
cannot be built: once they are, neither the order of the activities nor the check of the references
fails. -/
theorem compile_closed (c : Compiler) (d : Definition) :
    (∀ pl : Pipeline, c.withoutHooks.compile d = .ok pl → Workflow.Graph.Closed pl.graph.records) ∧
      (∀ e, c.withoutHooks.compile d = .error e →
        (∀ cause, e ≠ .order cause) ∧
          ∀ object field target, e ≠ .workflow (.unknownReference object field target)) ∧
      ((∃ pl, c.withoutHooks.compile d = .ok pl) ↔ ∃ b, c.built d = .ok b) := by
  rw [compile_withoutHooks]
  refine ⟨?_, ?_, ?_⟩
  · intro pl h
    obtain ⟨b, hb, hgraph, _⟩ := compileDefinition_cases h
    rw [hgraph]
    exact (grounded_built hb).reduced.closed
  · intro e h
    have hearly := failsEarly_compileDefinition e h
    constructor
    · rintro cause rfl
      exact hearly
    · rintro object field target rfl
      exact hearly
  · constructor
    · rintro ⟨pl, h⟩
      obtain ⟨b, hb, _⟩ := compileDefinition_cases h
      exact ⟨b, hb⟩
    · rintro ⟨b, hb⟩
      exact exists_compileDefinition hb

/-- A compiler whose settings name all that the orchestrator asks for. -/
def sample : Compiler where
  settings := { etl := { storeBucket := some "etl", role := some "r", resourceRole := some "m" } }
  registry := Step.Registry.builtin
  files := {}
  now := ⟨0⟩

/-- A step with arguments that are texts. -/
def describe (type name : String) (arguments : List (String × String)) : Step.Descriptor where
  stepType := type
  name := some name
  arguments := arguments.map fun (key, text) => (.string key, .string text)

/-- A directory, a command that reads it, a job that reads what the command writes, and a job behind
all of them. -/
def clicks : Definition where
  name := "clicks"
  frequency := .oneTime
  steps := [
    describe "extract-s3" "raw" [("directory_uri", "s3://landing/clicks/")],
    describe "transform" "clean" [("command", "cat")],
    describe "emr-step" "count" [("step_string", "count.jar")]]
  teardown := some (describe "emr-step" "done" [("step_string", "done.jar")])

theorem compile_closed_clicks :
    ∃ pl, sample.withoutHooks.compile clicks = .ok pl ∧ Workflow.Graph.Closed pl.graph.records := by
  have hbuilt : (sample.built clicks).isOk = true := by decide +kernel
  obtain ⟨hclosed, _, hcompiles⟩ := compile_closed sample clicks
  obtain ⟨pl, hpl⟩ := hcompiles.mpr (exists_ok_of_isOk hbuilt)
  exact ⟨pl, hpl, hclosed pl hpl⟩

end Compiler

end EtlFlow.Pipeline
