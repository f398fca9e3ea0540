import EtlFlow.Proofs.Pipeline.Links
/-!
# The step behind all others

A pipeline for which a teardown is declared ends with it.  The teardown names every other step,
including those that prepare its machine, and no other step has it as a predecessor.  The activities
of another step run before those of the teardown exactly when the one or the other step has none, or
a chain of links leads from that step to the teardown; each step that is the last one of its id is
linked (`teardown_runs_last`).  A step that a later one of the same id hides need not be
(`not_runsBefore_teardown_hidden`).
-/

namespace EtlFlow.Pipeline

open Outcome
open Relation (ReflTransGen TransGen)
open Workflow (ObjectId Activity)

/-! ### Declared teardowns -/

/-- A teardown is declared by the definition or by the settings. -/
theorem teardown?_ne_none {p : Plan}
    (h : p.definition.teardown.isSome = true ∨ p.settings.teardown.isSome = true) :
    p.teardown? ≠ .ok none := by
  intro hnone
  unfold Plan.teardown? at hnone
  split at hnone
  · cases hnone
  · next hdefinition =>
      rw [hdefinition] at h
      have hsettings : p.settings.teardown.isSome = true := h.resolve_left Bool.false_ne_true
      obtain ⟨v, hv⟩ := Option.isSome_iff_exists.mp hsettings
      rw [hv, mapError_eq_ok_iff, Option.mapM_some] at hnone
      cases hofv : Step.Descriptor.ofValue v with
      | error e =>
          rw [hofv] at hnone
          cases hnone
      | ok d =>
          rw [hofv] at hnone
          cases hnone

namespace Build

variable {p : Plan} {b b' : Build}

/-! ### Roles -/

/-- A run places no teardown. -/
theorem role_ne_teardown_of_run (h : ReflTransGen (Change p) b b')
    (hb : ∀ s ∈ b.steps, s.role ≠ .teardown) :
    ∀ s ∈ b'.steps, s.role ≠ .teardown := by
  induction h with
  | refl => exact hb
  | tail _ hchange ih =>
      cases hchange with
      | machine _ h =>
          rw [(sameSteps_addMachine h).steps]
          exact ih
      | place hrole _ _ h =>
          obtain ⟨c, hc, _, hcrole, _⟩ := steps_of_place h
          rw [hc]
          intro s hs
          rcases List.mem_append.mp hs with hs | hs
          · exact ih s hs
          · rw [List.mem_singleton.mp hs, hcrole]
            exact hrole
      | prepare _ _ _ =>
          rw [steps_addPreparation]
          exact ih

/-! ### The end of a build -/

theorem not_mem_ids_of_step? {id : String} (h : b.step? id = none) :
    id ∉ b.steps.map CompiledStep.id := by
  intro hmem
  obtain ⟨s, hs, rfl⟩ := List.mem_map.mp hmem
  unfold step? at h
  rw [List.find?_eq_none] at h
  exact h s (List.mem_reverse.mpr hs) (beq_self_eq_true s.id)

/-- The teardown names all other steps. -/
theorem Ends.exists_teardown (h : Ends p b b') (hb : Accounted b)
    (hdeclared : p.teardown? ≠ .ok none) :
    ∃ t, b'.steps = b.steps ++ [t] ∧ t.role = .teardown ∧ t.id ∉ b.steps.map CompiledStep.id ∧
      ∀ id, id ∈ t.dependsOn ↔ id ∈ b.steps.map CompiledStep.id := by
  cases h with
  | without hnone => exact absurd hnone hdeclared
  | @teardown _ d id type _ hnew hplace =>
      obtain ⟨b₁, input, dependsOn, e, hsame, hd, _, hadded⟩ := place_cases hplace
      have hid := not_mem_ids_of_step? hnew
      have hb₁ := hb.sameSteps hsame
      let planned : PlannedStep :=
        { descriptor := d, id, role := .teardown, after := b.steps.map CompiledStep.id }
      have hafter : planned.after ⊆ b₁.steps.map CompiledStep.id := by
        rw [hsame.steps]
        exact List.Subset.refl _
      refine ⟨compiled planned type.kind input dependsOn e, ?_, rfl, hid, ?_⟩
      · rw [hadded.steps, hsame.steps]
      · intro x
        constructor
        · intro hx
          rw [← hsame.steps]
          exact (mem_predecessors hd hb₁.producers hafter).1 hx
        · intro hx
          refine (mem_predecessors hd hb₁.producers hafter).2 hx ?_
          rintro rfl
          exact hid hx

end Build

theorem exists_teardown_of_build {p : Plan} {start : Time.Instant} {b : Build}
    (h : Compiler.build p start = .ok b) (hdeclared : p.teardown? ≠ .ok none) :
    ∃ others t, b.steps = others ++ [t] ∧ t.role = .teardown ∧ (∀ s ∈ others, s.role ≠ .teardown) ∧
      t.id ∉ others.map CompiledStep.id ∧ ∀ id, id ∈ t.dependsOn ↔ id ∈ others.map CompiledStep.id := by
  obtain ⟨b₀, b₁, h₀, hrun, hends⟩ := build_run h
  have hb₁ := (accounted_base h₀).run (grounded_base h₀) hrun
  obtain ⟨t, hsteps, hrole, hid, hnames⟩ := hends.exists_teardown hb₁ hdeclared
  refine ⟨b₁.steps, t, hsteps, hrole, ?_, hid, hnames⟩
  apply Build.role_ne_teardown_of_run hrun
  obtain ⟨_, _, _, _, rfl, _⟩ := base_spec h₀
  exact fun s hs => absurd hs List.not_mem_nil

namespace Compiler

variable {c : Compiler} {d : Definition} {pl : Pipeline}

theorem plan_cases {p : Plan} (h : c.plan d = .ok p) :
    p.definition = d ∧ p.settings = c.settings := by
  simp only [plan, bind_eq_ok_iff, mapError_eq_ok_iff, pure_eq_ok_iff] at h
  obtain ⟨_, _, rfl⟩ := h
  exact ⟨rfl, rfl⟩

theorem exists_teardown_of_built {b : Build} (h : c.built d = .ok b)
    (hdeclared : d.teardown.isSome = true ∨ c.settings.teardown.isSome = true) :
    ∃ others t, b.steps = others ++ [t] ∧ t.role = .teardown ∧ (∀ s ∈ others, s.role ≠ .teardown) ∧
      t.id ∉ others.map CompiledStep.id ∧ ∀ id, id ∈ t.dependsOn ↔ id ∈ others.map CompiledStep.id := by
  obtain ⟨p, hp, start, _, h⟩ := built_eq_ok_iff.mp h
  obtain ⟨hdefinition, hsettings⟩ := plan_cases hp
  rw [← hdefinition, ← hsettings] at hdeclared
  exact exists_teardown_of_build h (teardown?_ne_none hdeclared)

/-- Where a teardown is declared, it is the last step and names exactly the ids of the other steps,
and no activity of another step runs behind one of its activities.  All activities of the other
steps run before all of its activities exactly when every other step has no activities or a chain of
links leads from it to the teardown, provided that the teardown has activities.  From the last step
of an id such a link leads there. -/
theorem teardown_runs_last (h : c.withoutHooks.compile d = .ok pl)
    (hdeclared : d.teardown.isSome = true ∨ c.settings.teardown.isSome = true) :
    ∃ b others t, c.built d = .ok b ∧ pl.steps = b.steps ∧ pl.steps = others ++ [t] ∧
      t.role = .teardown ∧ (∀ s ∈ others, s.role ≠ .teardown) ∧ t.id ∉ others.map CompiledStep.id ∧
      (∀ id, id ∈ t.dependsOn ↔ id ∈ others.map CompiledStep.id) ∧
      (∀ s ∈ others, ∀ x ∈ s.activities, ∀ y ∈ t.activities, ¬ pl.graph.RunsBefore y x) ∧
      ((∀ s ∈ others, ∀ x ∈ s.activities, ∀ y ∈ t.activities, pl.graph.RunsBefore x y) ↔
        ∀ s ∈ others, s.activities = [] ∨ t.activities = [] ∨ TransGen b.Link s t) ∧
      ∀ front s back, others = front ++ s :: back → s.id ∉ back.map CompiledStep.id →
        ∀ x ∈ s.activities, ∀ y ∈ t.activities, pl.graph.RunsBefore x y := by
  rw [compile_withoutHooks] at h
  obtain ⟨b, hb, hgraph, hsteps⟩ := compileDefinition_cases h
  have haccounted := accounted_built hb
  have hgrounded := grounded_built hb
  obtain ⟨others, t, hlast, hrole, hroles, hid, hnames⟩ := exists_teardown_of_built hb hdeclared
  have hothers : others ⊆ b.steps := by
    rw [hlast]
    exact List.subset_append_left _ _
  have ht : t ∈ b.steps := by
    rw [hlast]
    exact List.mem_append_right _ List.mem_cons_self
  rw [runsBefore_compiled hb hgraph, hsteps]
  refine ⟨b, others, t, hb, rfl, hlast, hrole, hroles, hid, hnames, ?_, ?_, ?_⟩
  · intro s hs x hx y hy
    exact haccounted.not_runsBefore_earlier hgrounded hlast hs List.mem_cons_self hx hy
  · constructor
    · intro hbefore s hs
      exact (haccounted.forall_runsBefore_iff hgrounded (hothers hs) ht).mp (hbefore s hs)
    · intro hlinked s hs
      exact (haccounted.forall_runsBefore_iff hgrounded (hothers hs) ht).mpr (hlinked s hs)
  · intro front s back hsplit hback x hx y hy
    have hnamed : s.id ∈ t.dependsOn := by
      rw [hnames, hsplit]
      exact List.mem_map_of_mem (List.mem_append_right _ List.mem_cons_self)
    have hstep : ({ b with steps := others } : Build).step? s.id = some s := by
      rw [hsplit]
      exact Build.step?_of_last hback
    exact (Build.link_of_step? hlast hstep (List.ne_nil_of_mem hx) hnamed).runsBefore haccounted hx hy

theorem teardown_runs_last_clicks :
    ∃ pl others t, sample.withoutHooks.compile clicks = .ok pl ∧
      pl.steps = others ++ [t] ∧ t.role = .teardown ∧
      (∀ id, id ∈ t.dependsOn ↔ id ∈ others.map CompiledStep.id) ∧
      ∀ s ∈ others, ∀ x ∈ s.activities, ∀ y ∈ t.activities, pl.graph.RunsBefore x y := by
  have hids : (sample.built clicks).toOption.map (fun b => b.steps.map CompiledStep.id) =
      some ["raw", "clean", "count", "done"] := by decide +kernel
  obtain ⟨b, hb, hids⟩ := exists_ok_of_map_toOption hids
  obtain ⟨pl, hpl⟩ := exists_compileDefinition hb
  rw [← compile_withoutHooks] at hpl
  obtain ⟨b', others, t, hb', hsteps, hlast, hrole, _, _, hnames, _, _, hbefore⟩ :=
    teardown_runs_last hpl (.inl (by decide))
  rw [hb] at hb'
  cases hb'
  rw [← hsteps, hlast, List.map_append] at hids
  have hn : (others.map CompiledStep.id ++ [t].map CompiledStep.id).Nodup := by
    rw [hids]
    decide
  refine ⟨pl, others, t, hpl, hlast, hrole, hnames, ?_⟩
  intro s hs
  obtain ⟨front, back, hsplit⟩ := List.append_of_mem hs
  apply hbefore front s back hsplit
  rw [hsplit] at hn
  exact Build.id_not_mem_of_nodup (List.nodup_append.mp hn).1

/-! ### A step that another one hides -/

/-- The description of a step as a value. -/
def described (type name : String) (arguments : List (String × Yaml.Value)) : Yaml.Value :=
  .mapping ((.string "step_type", .string type) :: (.string "name", .string name) ::
    arguments.map fun (key, v) => (.string key, v))

/-- A cluster that a step prepares whose own machine is prepared by a step of the same name. -/
def twice : Definition where
  name := "twice"
  frequency := .oneTime
  steps := [describe "emr-step" "job" [("step_string", "job.jar")]]
  bootstrap := some {
    ec2 := [described "transform" "X"
      [("command", .string "date"), ("no_input", .bool true), ("no_output", .bool true)]]
    emr := [described "load-reload-pk" "X"
      [("input_path", .string "s3://landing/k/"), ("staging_table_definition", .string "s.sql"),
        ("production_table_definition", .string "p.sql")]] }
  teardown := some (describe "emr-step" "end" [("step_string", "end.jar")])

/-- The definitions of two tables. -/
def tables : Files.Tree where
  entries := [(["s.sql"], .file "create table s (a int primary key)".toUTF8),
    (["p.sql"], .file "create table p (a int primary key)".toUTF8)]

/-- The name `X` stands for the step that was placed last, so that the teardown does not wait for
the other one. -/
theorem not_runsBefore_teardown_hidden :
    ∃ pl s t, ({ sample with files := tables } : Compiler).withoutHooks.compile twice = .ok pl ∧
      s ∈ pl.steps ∧ t ∈ pl.steps ∧ s.role = .bootstrap ∧ t.role = .teardown ∧ s.id ∈ t.dependsOn ∧
        ∃ x ∈ s.activities, ∃ y ∈ t.activities, ¬ pl.graph.RunsBefore x y := by
  have houtline : (({ sample with files := tables } : Compiler).built twice).toOption.map outline = some
      ⟨[("X", .bootstrap, ["X"], []), ("X", .bootstrap, ["XLoad", "XReload", "XPrimaryKeyCheck"], []),
          ("job", .step, ["job"], []), ("end", .teardown, ["end"], ["X", "job"])],
        [("X", []), ("XLoad", []), ("XReload", ["XLoad"]), ("XPrimaryKeyCheck", ["XReload"]),
          ("job", ["XLoad", "XReload", "XPrimaryKeyCheck"]),
          ("end", ["XLoad", "XReload", "XPrimaryKeyCheck", "job"])]⟩ := by decide +kernel
  obtain ⟨pl, hpl, hstep, hunneeded⟩ := compile_of_outline houtline
  obtain ⟨s, hs, hsv⟩ := hstep ("X", .bootstrap, ["X"], []) (by decide)
  obtain ⟨t, ht, htv⟩ := hstep ("end", .teardown, ["end"], ["X", "job"]) (by decide)
  simp only [Prod.mk.injEq] at hsv htv
  refine ⟨pl, s, t, hpl, hs, ht, hsv.2.1, htv.2.1, ?_, "X", ?_, "end", ?_, hunneeded _ _ (by decide)⟩
  · simp [hsv, htv]
  · simp [hsv]
  · simp [htv]

end Compiler

end EtlFlow.Pipeline
