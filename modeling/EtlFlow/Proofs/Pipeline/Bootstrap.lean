import EtlFlow.Proofs.Pipeline.Teardown
/-!
# The steps that prepare machines

Each machine of a pipeline is prepared by steps that come, one by one and in their order, from the
values listed for it (`Plan.Describes`), and the steps that prepare machines are those of the two
lists and no others.  A list is worked off as a whole before the first step of the definition uses
its machine, even where it asks for the other machine meanwhile (`prepared_prepare`), so that all
activities that prepare a machine run before all that use it (`bootstrap_runs_first`).
-/

namespace EtlFlow.Pipeline

open Outcome
open Step (Machine Descriptor)
open Workflow (ObjectId)

/-- The step that the value at a position of the list of a machine comes to. -/
def Plan.Describes (p : Plan) (m : Machine) (entry : Yaml.Value × ℕ) (s : CompiledStep) : Prop :=
  ∃ d type, Descriptor.ofValue entry.1 = .ok d ∧
    p.stepId (Build.bootstrapStart m) d entry.2 = .ok s.id ∧ p.resolve d = .ok type ∧
    s.kind = type.kind ∧ s.role = .bootstrap

/-- The steps are those of the whole list of a machine. -/
def Plan.Lists (p : Plan) (m : Machine) (steps : List CompiledStep) : Prop :=
  List.Forall₂ (p.Describes m) (p.bootstrap m).zipIdx steps

namespace Build

variable {p : Plan} {b b' b₁ b₂ : Build} {m k : Machine} {s : PlannedStep} {type : Step.StepType}
  {prepared prepared₁ prepared₂ : Machine → List CompiledStep}

/-- Which steps prepare which machine. -/
structure PreparedBy (b : Build) (prepared : Machine → List CompiledStep) : Prop where
  activities : ∀ m, b.preparation m = (prepared m).flatMap CompiledStep.activities
  bootstrap : (b.steps.filter (·.role = .bootstrap)).Perm (prepared .ec2 ++ prepared .emr)
  absent : ∀ m, b.isReady m = false → prepared m = []

/-! ### Which machines are there -/

theorem isReady_addMachine_of_ne (h : b.addMachine p m = .ok b') (hk : k ≠ m) :
    b'.isReady k = b.isReady k := by
  rcases addMachine_cases h with
    ⟨rfl, _, _, rfl⟩ | ⟨rfl, _, _, _, _, _, rfl⟩ | ⟨rfl, _, _, _, _, rfl⟩ | ⟨rfl, rfl⟩
  · cases k <;> first | rfl | exact absurd rfl hk
  · cases k <;> first | rfl | exact absurd rfl hk
  · cases k <;> first | rfl | exact absurd rfl hk
  · rfl

theorem isReady_addPreparation (b : Build) (ids : List ObjectId) (m k : Machine) :
    (b.addPreparation ids m).isReady k = b.isReady k := by
  cases m <;> cases k <;> rfl

/-! ### Steps that are added -/

theorem PreparedBy.addMachine (hb : b.PreparedBy prepared) (h : b.addMachine p m = .ok b') :
    b'.PreparedBy prepared := by
  have hsame := sameSteps_addMachine h
  refine ⟨?_, ?_, ?_⟩
  · rw [hsame.preparation]
    exact hb.activities
  · rw [hsame.steps]
    exact hb.bootstrap
  · intro k hk
    by_cases hkm : k = m
    · rw [hkm, isReady_addMachine h] at hk
      cases hk
    · rw [isReady_addMachine_of_ne h hkm] at hk
      exact hb.absent k hk

/-- What placing a step changes for the steps that prepare machines. -/
theorem preparation_of_place (h : place p s type b = .ok b') :
    b'.preparation = b.preparation := by
  obtain ⟨b₁, input, dependsOn, e, hsame, _, _, hadded⟩ := place_cases h
  rw [hadded.preparation, hsame.preparation]

/-- A step of another role changes nothing about which steps prepare which machine. -/
theorem PreparedBy.place (hb : b.PreparedBy prepared) (hrole : s.role ≠ .bootstrap)
    (h : place p s type b = .ok b') : b'.PreparedBy prepared := by
  obtain ⟨c, hc, _, hcrole, _⟩ := steps_of_place h
  refine ⟨?_, ?_, fun k hk => hb.absent k (isReady_place h k ▸ hk)⟩
  · rw [preparation_of_place h]
    exact hb.activities
  · have hnot : ¬ c.role = .bootstrap := by
      rw [hcrole]
      exact hrole
    rw [hc, List.filter_append, List.filter_cons_of_neg (by simpa using hnot), List.filter_nil,
      List.append_nil]
    exact hb.bootstrap

/-- A placed step becomes one more that prepares the machine. -/
theorem PreparedBy.addPreparation {c : CompiledStep} (hb : b.PreparedBy prepared) (hm : m ≠ .none)
    (hready : b.isReady m = true) (h : Build.place p s type b = .ok b')
    (hsteps : b'.steps = b.steps ++ [c])
    (hrole : c.role = .bootstrap) :
    (b'.addPreparation c.activities m).PreparedBy
      (Function.update prepared m (prepared m ++ [c])) := by
  refine ⟨?_, ?_, ?_⟩
  · intro k
    rw [preparation_addPreparation, preparation_of_place h]
    by_cases hk : k = m
    · subst hk
      rw [if_pos ⟨rfl, hm⟩, Function.update_self, List.flatMap_append, hb.activities]
      simp
    · rw [if_neg fun h => hk h.1, Function.update_of_ne hk]
      exact hb.activities k
  · rw [steps_addPreparation, hsteps, List.filter_append,
      List.filter_cons_of_pos (by simpa using hrole), List.filter_nil]
    have hperm := hb.bootstrap.append_right [c]
    cases m with
    | ec2 =>
        rw [Function.update_self, Function.update_of_ne (by decide)]
        refine hperm.trans ?_
        rw [List.append_assoc, List.append_assoc]
        exact List.perm_append_comm.append_left _
    | emr =>
        rw [Function.update_self, Function.update_of_ne (by decide), ← List.append_assoc]
        exact hperm
    | none => exact absurd rfl hm
  · intro k hk
    rw [isReady_addPreparation, isReady_place h] at hk
    have hkm : k ≠ m := by
      rintro rfl
      rw [hready] at hk
      cases hk
    rw [Function.update_of_ne hkm]
    exact hb.absent k hk

/-! ### Working off a list -/

/-- A machine that was there before is prepared as before, and one that comes in is prepared by its
whole list. -/
def Unfolds (p : Plan) (b : Build) (prepared : Machine → List CompiledStep) (b' : Build)
    (prepared' : Machine → List CompiledStep) (k : Machine) : Prop :=
  (b'.isReady k = b.isReady k ∧ prepared' k = prepared k) ∨
    (b.isReady k = false ∧ b'.isReady k = true ∧ p.Lists k (prepared' k))

theorem Unfolds.trans (h : Unfolds p b prepared b₁ prepared₁ k)
    (h' : Unfolds p b₁ prepared₁ b₂ prepared₂ k) : Unfolds p b prepared b₂ prepared₂ k := by
  rcases h with ⟨hready, hsame⟩ | ⟨hnew, hready, hlists⟩
  · rcases h' with ⟨hready', hsame'⟩ | ⟨hnew', hready', hlists'⟩
    · exact .inl ⟨hready'.trans hready, hsame'.trans hsame⟩
    · exact .inr ⟨hready.symm.trans hnew', hready', hlists'⟩
  · rcases h' with ⟨hready', hsame'⟩ | ⟨hnew', _, _⟩
    · refine .inr ⟨hnew, hready'.trans hready, ?_⟩
      rw [hsame']
      exact hlists
    · rw [hready] at hnew'
      cases hnew'

theorem Unfolds.eq_of_isReady (h : Unfolds p b prepared b' prepared₁ k) (hk : b.isReady k = true) :
    b'.isReady k = true ∧ prepared₁ k = prepared k := by
  rcases h with ⟨hready, hsame⟩ | ⟨hnew, _, _⟩
  · exact ⟨hready.trans hk, hsame⟩
  · rw [hk] at hnew
    cases hnew

/-- What is required of preparing a machine. -/
def Prepared (p : Plan) (prepare : Machine → Build → Except Error Build) : Prop :=
  ∀ m b b' prepared, b.PreparedBy prepared → prepare m b = .ok b' →
    ∃ prepared', b'.PreparedBy prepared' ∧ ∀ k, Unfolds p b prepared b' prepared' k

/-- By induction on the list of a machine that is there.  Each of its values may bring in the other
machine with its whole list, and then adds one step to those that prepare this one. -/
theorem prepared_expandBootstrap {prepare : Machine → Build → Except Error Build}
    (hprepare : Prepared p prepare) {position : ℕ} {previous : Option String}
    {vs : List Yaml.Value} (hm : m ≠ .none) (hready : b.isReady m = true)
    (hb : b.PreparedBy prepared)
    (h : expandBootstrap p (expandWith p prepare) m position previous vs b = .ok b') :
    ∃ prepared' new, b'.PreparedBy prepared' ∧ b'.isReady m = true ∧
      prepared' m = prepared m ++ new ∧
      List.Forall₂ (p.Describes m) (vs.zipIdx position) new ∧
      ∀ k, k ≠ m → Unfolds p b prepared b' prepared' k := by
  induction vs generalizing position previous b prepared with
  | nil =>
      cases h
      exact ⟨prepared, [], hb, hready, (List.append_nil _).symm, .nil, fun k _ => .inl ⟨rfl, rfl⟩⟩
  | cons v vs ih =>
      simp only [expandBootstrap, bind_eq_ok_iff, mapError_eq_ok_iff] at h
      obtain ⟨d, hd, id, hid, b₂, h₂, h⟩ := h
      simp only [expandWith, guard_eq_ok_iff, bind_eq_ok_iff] at h₂
      obtain ⟨_, type, htype, b₁, h₁, hplace⟩ := h₂
      obtain ⟨prepared₁, hb₁, hunfolds₁⟩ := hprepare _ _ _ _ hb h₁
      obtain ⟨hready₁, hsame₁⟩ := (hunfolds₁ m).eq_of_isReady hready
      obtain ⟨c, hc, rfl, hcrole, hckind⟩ := steps_of_place hplace
      rw [activitiesOf_last hc] at h
      have hb₂ := hb₁.addPreparation hm hready₁ hplace hc hcrole
      have hready₂ : ∀ k, (b₂.addPreparation c.activities m).isReady k = b₁.isReady k := fun k => by
        rw [isReady_addPreparation, isReady_place hplace]
      obtain ⟨prepared', new, hb', hready', hnew, hlist, hunfolds⟩ :=
        ih ((hready₂ m).trans hready₁) hb₂ h
      refine ⟨prepared', c :: new, hb', hready', ?_, ?_, ?_⟩
      · rw [hnew, Function.update_self, hsame₁, List.append_assoc, List.singleton_append]
      · rw [List.zipIdx_cons]
        exact .cons ⟨d, type, hd, hid, htype, hckind, hcrole⟩ hlist
      · intro k hk
        have hstep : Unfolds p b₁ prepared₁ (b₂.addPreparation c.activities m)
            (Function.update prepared₁ m (prepared₁ m ++ [c])) k :=
          .inl ⟨hready₂ k, Function.update_of_ne hk _ _⟩
        exact ((hunfolds₁ k).trans hstep).trans (hunfolds k hk)

/-- By induction on how many machines may need each other. -/
theorem prepared_prepare (depth : ℕ) : Prepared p (prepare p depth) := by
  induction depth with
  | zero =>
      intro m b b' prepared hb h
      cases h
      exact ⟨prepared, hb, fun k => .inl ⟨rfl, rfl⟩⟩
  | succ depth ih =>
      intro m b b' prepared hb h
      unfold prepare at h
      by_cases hready : b.isReady m = true
      · rw [if_pos hready] at h
        cases h
        exact ⟨prepared, hb, fun k => .inl ⟨rfl, rfl⟩⟩
      · rw [if_neg hready, bind_eq_ok_iff] at h
        obtain ⟨b₁, h₁, h⟩ := h
        have hm : m ≠ .none := by
          rintro rfl
          exact hready rfl
        obtain ⟨prepared', new, hb', hready', hnew, hlist, hunfolds⟩ :=
          prepared_expandBootstrap ih hm (isReady_addMachine h₁) (hb.addMachine h₁) h
        refine ⟨prepared', hb', fun k => ?_⟩
        by_cases hk : k = m
        · subst hk
          refine .inr ⟨Bool.eq_false_iff.mpr hready, hready', ?_⟩
          rw [hnew, hb.absent k (Bool.eq_false_iff.mpr hready), List.nil_append]
          exact hlist
        · have hstep : Unfolds p b prepared b₁ prepared k :=
            .inl ⟨isReady_addMachine_of_ne h₁ hk, rfl⟩
          exact hstep.trans (hunfolds k hk)

/-! ### All steps -/

/-- The machines that are there are prepared by their whole lists. -/
structure Whole (p : Plan) (b : Build) (prepared : Machine → List CompiledStep) : Prop
    extends b.PreparedBy prepared where
  lists : ∀ m, b.isReady m = true → p.Lists m (prepared m)

/-- No step prepares a machine that is none. -/
theorem Whole.prepared_none (hb : b.Whole p prepared) : prepared .none = [] :=
  List.forall₂_nil_left_iff.mp (hb.lists .none rfl)

/-- A list that is not worked off now was worked off before. -/
theorem Whole.lists_of_unfolds (hb : b.Whole p prepared) (h : Unfolds p b prepared b' prepared₁ k)
    (hk : b'.isReady k = true) : p.Lists k (prepared₁ k) := by
  rcases h with ⟨hready, hsame⟩ | ⟨_, _, hlists⟩
  · rw [hsame]
    exact hb.lists k (hready ▸ hk)
  · exact hlists

theorem whole_prepare (hb : b.Whole p prepared) (h : prepare p machines m b = .ok b') :
    ∃ prepared', b'.Whole p prepared' ∧ ∀ k, Unfolds p b prepared b' prepared' k := by
  obtain ⟨prepared', hb', hunfolds⟩ := prepared_prepare machines _ _ _ _ hb.toPreparedBy h
  exact ⟨prepared', ⟨hb', fun k => hb.lists_of_unfolds (hunfolds k)⟩, hunfolds⟩

theorem Whole.place (hb : b.Whole p prepared) (hrole : s.role ≠ .bootstrap)
    (h : Build.place p s type b = .ok b') : b'.Whole p prepared :=
  ⟨hb.toPreparedBy.place hrole h, fun k hk => hb.lists k (isReady_place h k ▸ hk)⟩

/-- A step of another role: its machine is prepared, and then the step is placed. -/
theorem whole_expand (hb : b.Whole p prepared) (hrole : s.role ≠ .bootstrap)
    (h : expand p s b = .ok b') : ∃ prepared', b'.Whole p prepared' := by
  simp only [expand, expandWith, guard_eq_ok_iff, bind_eq_ok_iff] at h
  obtain ⟨_, type, _, b₁, h₁, hplace⟩ := h
  obtain ⟨prepared', hb₁, _⟩ := whole_prepare hb h₁
  exact ⟨prepared', hb₁.place hrole hplace⟩

theorem whole_expandSteps {ds : List Descriptor} {position : ℕ} (hb : b.Whole p prepared)
    (h : expandSteps p position ds b = .ok b') : ∃ prepared', b'.Whole p prepared' := by
  induction ds generalizing position b prepared with
  | nil =>
      cases h
      exact ⟨prepared, hb⟩
  | cons d ds ih =>
      simp only [expandSteps, bind_eq_ok_iff] at h
      obtain ⟨id, _, b₁, h₁, h⟩ := h
      obtain ⟨prepared₁, hb₁⟩ := whole_expand hb (by simp) h₁
      exact ih hb₁ h

/-- The machine of the step behind all others is prepared like that of any other step. -/
theorem whole_expandTeardown (hb : b.Whole p prepared) (hsettled : Settled b)
    (h : expandTeardown p b = .ok b') : Settled b' ∧ ∃ prepared', b'.Whole p prepared' := by
  simp only [expandTeardown, bind_eq_ok_iff] at h
  obtain ⟨t, _, h⟩ := h
  cases t with
  | none =>
      cases h
      exact ⟨hsettled, prepared, hb⟩
  | some d =>
      simp only [bind_eq_ok_iff] at h
      obtain ⟨type, _, b₁, h₁, h⟩ := h
      obtain ⟨prepared₁, hwhole₁, _⟩ := whole_prepare hb h₁
      refine ⟨?_, whole_expand hwhole₁ (by simp) h⟩
      have hsettled₁ := (prepares_prepare hsettled h₁).1.settled hsettled
      simp only [expand, expandWith, guard_eq_ok_iff, bind_eq_ok_iff] at h
      obtain ⟨_, type', _, b₂, h₂, hplace⟩ := h
      have hsettled₂ := (prepares_prepare hsettled₁ h₂).1.settled hsettled₁
      obtain ⟨c, hc, _, hcrole, _⟩ := steps_of_place hplace
      intro s hs hrole
      rw [hc, List.mem_append, List.mem_singleton] at hs
      rw [isReady_place hplace]
      rcases hs with hs | rfl
      · exact hsettled₂ s hs hrole
      · rw [hcrole] at hrole
        cases hrole

end Build

theorem whole_base {p : Plan} {start : Time.Instant} {b : Build}
    (h : Compiler.base p start = .ok b) : Build.Whole p b fun _ => [] := by
  obtain ⟨_, _, g, _, rfl, _⟩ := base_spec h
  refine ⟨⟨?_, List.Perm.refl _, fun _ _ => rfl⟩, ?_⟩
  · rintro (_ | _ | _) <;> rfl
  · rintro (_ | _ | _) hready
    · cases hready
    · cases hready
    · exact .nil

theorem whole_build {p : Plan} {start : Time.Instant} {b : Build}
    (h : Compiler.build p start = .ok b) : Build.Settled b ∧ ∃ prepared, b.Whole p prepared := by
  simp only [Compiler.build, bind_eq_ok_iff] at h
  obtain ⟨b₀, h₀, b₁, h₁, h⟩ := h
  obtain ⟨prepared₁, hb₁⟩ := Build.whole_expandSteps (whole_base h₀) h₁
  exact Build.whole_expandTeardown hb₁ (Build.run_expandSteps (settled_base h₀) h₁).2 h

/-- The activities of a step of the definition wait for those that prepare its machine. -/
theorem Build.Accounted.runsBefore_of_preparation {b : Build} (hb : b.Accounted) {t : CompiledStep}
    (ht : t ∈ b.steps) (hrole : t.role = .step) {x y : ObjectId}
    (hx : x ∈ b.preparation t.kind.machine) (hy : y ∈ t.activities) : b.graph.RunsBefore x y := by
  obtain ⟨front, back, hsplit⟩ := List.append_of_mem ht
  obtain ⟨a, ha, rfl⟩ := hb.exists_activity ht hy
  refine .single ⟨a, ha, rfl, (hb.waits front t back hsplit a ha hy).2 ?_⟩
  refine List.mem_append_right _ ?_
  rw [if_pos hrole]
  exact hx

namespace Compiler

variable {c : Compiler} {d : Definition} {pl : Pipeline}

/-- The steps that prepare machines are those of the lists of the two machines: a machine that is
used comes with the steps of its whole list, one that is not used with none of them.  All
activities of the steps that prepare a machine run before all activities of each step of the
definition that runs on that machine, in the order that the compiled pipeline gives. -/
theorem bootstrap_runs_first (h : c.withoutHooks.compile d = .ok pl) :
    ∃ p, c.plan d = .ok p ∧ ∃ prepared : Machine → List CompiledStep,
      (pl.steps.filter (·.role = .bootstrap)).Perm (prepared .ec2 ++ prepared .emr) ∧
      (∀ m, prepared m = [] ∨ p.Lists m (prepared m)) ∧
      ∀ t ∈ pl.steps, t.role = .step → p.Lists t.kind.machine (prepared t.kind.machine) ∧
        ∀ s ∈ prepared t.kind.machine, ∀ x ∈ s.activities, ∀ y ∈ t.activities,
          pl.graph.RunsBefore x y := by
  rw [compile_withoutHooks] at h
  obtain ⟨b, hb, hgraph, hsteps⟩ := compileDefinition_cases h
  have haccounted := accounted_built hb
  obtain ⟨p, hp, start, _, hbuild⟩ := built_eq_ok_iff.mp hb
  obtain ⟨hsettled, prepared, hwhole⟩ := whole_build hbuild
  rw [runsBefore_compiled hb hgraph, hsteps]
  refine ⟨p, hp, prepared, hwhole.bootstrap, ?_, ?_⟩
  · intro m
    by_cases hready : b.isReady m = true
    · exact .inr (hwhole.lists m hready)
    · exact .inl (hwhole.absent m (Bool.eq_false_iff.mpr hready))
  · intro t ht hrole
    refine ⟨hwhole.lists _ (hsettled t ht hrole), ?_⟩
    intro s hs x hx y hy
    refine haccounted.runsBefore_of_preparation ht hrole ?_ hy
    rw [hwhole.activities]
    exact List.mem_flatMap.mpr ⟨s, hs, hx⟩

/-- Two machines, each of which is prepared by a step that runs on the other one. -/
def crossed : Definition where
  name := "crossed"
  frequency := .oneTime
  steps := [describe "emr-step" "count" [("step_string", "count.jar")]]
  bootstrap := some {
    ec2 := [described "transform" "pip"
        [("command", .string "pip"), ("no_input", .bool true), ("no_output", .bool true)],
      described "emr-step" "warm" [("step_string", .string "warm.jar")]]
    emr := [described "transform" "fetch"
        [("command", .string "curl"), ("no_input", .bool true), ("no_output", .bool true)],
      described "emr-step" "unpack" [("step_string", .string "unpack.jar")]] }

theorem bootstrap_runs_first_crossed :
    ∃ (pl : Pipeline) (prepared : Machine → List CompiledStep),
      sample.withoutHooks.compile crossed = .ok pl ∧
      (pl.steps.filter (·.role = .bootstrap)).Perm (prepared .ec2 ++ prepared .emr) ∧
      (prepared .emr).length = 2 ∧
      ∀ s ∈ prepared .emr, ∀ x ∈ s.activities, pl.graph.RunsBefore x "count" := by
  have hlast : (sample.built crossed).toOption.map
      (fun b => b.steps.map fun s => (s.id, s.role, s.kind, s.activities)) = some
        [("pip", .bootstrap, .transform, ["pip"]), ("warm", .bootstrap, .emrStep, ["warm"]),
          ("fetch", .bootstrap, .transform, ["fetch"]),
          ("unpack", .bootstrap, .emrStep, ["unpack"]),
          ("count", .step, .emrStep, ["count"])] := by decide +kernel
  obtain ⟨b, hb, hlast⟩ := exists_ok_of_map_toOption hlast
  obtain ⟨pl, hpl⟩ := exists_compileDefinition hb
  obtain ⟨b', hb', _, hsteps⟩ := compileDefinition_cases hpl
  rw [hb] at hb'
  cases hb'
  rw [← compile_withoutHooks] at hpl
  obtain ⟨p, hp, prepared, hperm, _, hbefore⟩ := bootstrap_runs_first hpl
  have hcount : ("count", Role.step, Step.Kind.emrStep, ["count"]) ∈
      b.steps.map fun s => (s.id, s.role, s.kind, s.activities) := by
    rw [hlast]
    simp
  obtain ⟨t, ht, htv⟩ := List.mem_map.mp hcount
  simp only [Prod.mk.injEq] at htv
  obtain ⟨_, hrole, hkind, hactivities⟩ := htv
  obtain ⟨hlists, hbefore⟩ := hbefore t (hsteps ▸ ht) hrole
  rw [hkind] at hlists hbefore
  have hvalues : p.bootstrap .emr = (p.definition.bootstrap.getD p.settings.bootstrap).emr := rfl
  have hlength := hlists.length_eq
  rw [List.length_zipIdx, show Step.Kind.machine .emrStep = .emr from rfl, hvalues,
    (plan_cases hp).1] at hlength
  refine ⟨pl, prepared, hpl, hperm, hlength.symm, ?_⟩
  intro s hs x hx
  refine hbefore s hs x hx "count" ?_
  rw [hactivities]
  exact List.mem_singleton_self _

end Compiler

end EtlFlow.Pipeline
