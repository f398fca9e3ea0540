import EtlFlow.Proofs.Pipeline.Order
import Mathlib.Data.List.Pairwise
/-!
# The order of steps

A step is linked to a later one when the activities of the later one wait for all of its activities,
of which there are some.  The activities of one step run before those of another one exactly when a
chain of links leads from the one to the other (`forall_runsBefore_iff_linked`).  A step without
activities is no part of a chain: what waits for it does not wait for what it waits for
(`not_runsBefore_behind_empty`).
-/

namespace EtlFlow.Pipeline

open Outcome
open Relation (TransGen)
open Workflow (ObjectId Activity)

namespace Build

variable {b : Build} {s t u : CompiledStep} {front : List CompiledStep} {x y : ObjectId}

/-- The activities of `t` wait for all activities of `s`, of which there are some. -/
def Link (b : Build) (s t : CompiledStep) : Prop :=
  s ∈ b.steps ∧ s.activities ≠ [] ∧
    ∃ front back, b.steps = front ++ t :: back ∧ s.activities ⊆ b.waitsBehind front t

/-! ### Activities and their steps -/

/-- An activity belongs to one step. -/
theorem Accounted.step_unique (hb : Accounted b) (hs : s ∈ b.steps) (ht : t ∈ b.steps)
    (hx : x ∈ s.activities) (hx' : x ∈ t.activities) : s = t := by
  have hn := b.graph.nodup_activityIds
  rw [hb.activities, List.nodup_flatMap] at hn
  have hsymm : Std.Symm (Function.onFun List.Disjoint CompiledStep.activities) := ⟨fun _ _ h => h.symm⟩
  by_contra hne
  exact hn.2.forall hs ht hne hx hx'

theorem Accounted.exists_activity (hb : Accounted b) (hs : s ∈ b.steps) (hx : x ∈ s.activities) :
    ∃ a ∈ b.graph.activities, a.id = x := by
  have hmem : x ∈ b.graph.activities.map Activity.id := by
    rw [hb.activities]
    exact List.mem_flatMap.mpr ⟨s, hs, hx⟩
  exact List.mem_map.mp hmem

/-- Steps are waited for as a whole. -/
theorem Accounted.exists_step_of_waitsBehind (hb : Accounted b) (hfront : front ⊆ b.steps)
    (hx : x ∈ b.waitsBehind front t) :
    ∃ s ∈ b.steps, x ∈ s.activities ∧ s.activities ⊆ b.waitsBehind front t := by
  unfold waitsBehind waitsFor at hx ⊢
  rcases List.mem_append.mp hx with hx | hx
  · obtain ⟨id, hid, hx⟩ := List.mem_flatMap.mp hx
    cases hfind : ({ b with steps := front } : Build).step? id with
    | none =>
        unfold activitiesOf at hx
        rw [hfind] at hx
        cases hx
    | some s =>
        have hs : ({ b with steps := front } : Build).activitiesOf id = s.activities := by
          unfold activitiesOf
          rw [hfind]
          rfl
        rw [hs] at hx
        refine ⟨s, hfront (mem_steps_of_step? hfind).1, hx, ?_⟩
        intro y hy
        refine List.mem_append_left _ (List.mem_flatMap.mpr ⟨id, hid, ?_⟩)
        rw [hs]
        exact hy
  · by_cases hrole : t.role = .step
    · rw [if_pos hrole] at hx
      obtain ⟨s, hs, hxs, hsub⟩ := hb.preparation _ x hx
      refine ⟨s, hs, hxs, ?_⟩
      rw [if_pos hrole]
      exact List.Subset.trans hsub (List.subset_append_right _ _)
    · rw [if_neg hrole] at hx
      cases hx

/-! ### Links and edges -/

/-- What an activity waits for belongs to its own step or to a linked one. -/
theorem Accounted.link_of_needed (hb : Accounted b) (ht : t ∈ b.steps) (hy : y ∈ t.activities)
    (h : Sequence.NeededBy Activity.id Activity.dependsOn b.graph.activities x y) :
    x ∈ t.activities ∨ ∃ s ∈ b.steps, x ∈ s.activities ∧ b.Link s t := by
  obtain ⟨a, ha, rfl, hx⟩ := h
  obtain ⟨front, back, hsplit⟩ := List.append_of_mem ht
  have hfront : front ⊆ b.steps := by
    rw [hsplit]
    exact List.subset_append_left _ _
  rcases List.mem_append.mp ((hb.waits front t back hsplit a ha hy).1 hx) with hx | hx
  · exact .inl hx
  · obtain ⟨s, hs, hxs, hsub⟩ := hb.exists_step_of_waitsBehind hfront hx
    exact .inr ⟨s, hs, hxs, hs, List.ne_nil_of_mem hxs, front, back, hsplit, hsub⟩

theorem Link.runsBefore (hb : Accounted b) (h : b.Link s t) (hx : x ∈ s.activities)
    (hy : y ∈ t.activities) :
    b.graph.RunsBefore x y := by
  obtain ⟨_, _, front, back, hsplit, hsub⟩ := h
  have ht : t ∈ b.steps := by
    rw [hsplit]
    exact List.mem_append_right _ List.mem_cons_self
  obtain ⟨a, ha, rfl⟩ := hb.exists_activity ht hy
  exact .single ⟨a, ha, rfl, (hb.waits front t back hsplit a ha hy).2 (hsub hx)⟩

/-- Along a chain of links, all activities of the one end run before all of the other, because the
steps between have activities. -/
theorem runsBefore_of_linked (hb : Accounted b) (h : TransGen b.Link s t) (hx : x ∈ s.activities)
    (hy : y ∈ t.activities) : b.graph.RunsBefore x y := by
  induction h generalizing y with
  | single h => exact h.runsBefore hb hx hy
  | tail _ h ih =>
      obtain ⟨z, hz⟩ := List.exists_mem_of_ne_nil _ h.2.1
      exact (ih hz).trans (h.runsBefore hb hz hy)

/-- By induction on the path between two activities: it stays inside a step or goes along a link. -/
theorem linked_of_runsBefore (hb : Accounted b) (h : b.graph.RunsBefore x y) (hs : s ∈ b.steps)
    (hx : x ∈ s.activities)
    (ht : t ∈ b.steps) (hy : y ∈ t.activities) : s = t ∨ TransGen b.Link s t := by
  unfold Workflow.Graph.RunsBefore at h
  induction h generalizing t with
  | single h =>
      rcases hb.link_of_needed ht hy h with hx' | ⟨u, hu, hxu, hlink⟩
      · exact .inl (hb.step_unique hs ht hx hx')
      · rw [hb.step_unique hs hu hx hxu]
        exact .inr (.single hlink)
  | tail _ h ih =>
      rcases hb.link_of_needed ht hy h with hz | ⟨u, hu, hzu, hlink⟩
      · exact ih ht hz
      · rcases ih hu hzu with rfl | hchain
        · exact .inr (.single hlink)
        · exact .inr (hchain.tail hlink)

/-- All activities of `s` run before all activities of `t` exactly when one of the steps has none or
a chain of links leads from `s` to `t`. -/
theorem Accounted.forall_runsBefore_iff (hb : Accounted b) (hg : b.graph.Grounded)
    (hs : s ∈ b.steps) (ht : t ∈ b.steps) :
    (∀ x ∈ s.activities, ∀ y ∈ t.activities, b.graph.RunsBefore x y) ↔
      s.activities = [] ∨ t.activities = [] ∨ TransGen b.Link s t := by
  constructor
  · intro h
    by_cases hsn : s.activities = []
    · exact .inl hsn
    by_cases htn : t.activities = []
    · exact .inr (.inl htn)
    obtain ⟨x, hx⟩ := List.exists_mem_of_ne_nil _ hsn
    obtain ⟨y, hy⟩ := List.exists_mem_of_ne_nil _ htn
    rcases linked_of_runsBefore hb (h x hx y hy) hs hx ht hy with rfl | hchain
    · exact absurd (h x hx x hx) (hg.irrefl x)
    · exact .inr (.inr hchain)
  · rintro (hsn | htn | hchain) x hx y hy
    · rw [hsn] at hx
      cases hx
    · rw [htn] at hy
      cases hy
    · exact runsBefore_of_linked hb hchain hx hy

/-! ### Links by name -/

/-- The last step of an id is the one that the id stands for. -/
theorem step?_of_last {back : List CompiledStep} (h : s.id ∉ back.map CompiledStep.id) :
    ({ b with steps := front ++ s :: back } : Build).step? s.id = some s := by
  have hback : back.reverse.find? (·.id == s.id) = none := by
    rw [List.find?_eq_none]
    intro u hu hid
    apply h
    rw [← beq_iff_eq.mp hid]
    exact List.mem_map_of_mem (List.mem_reverse.mp hu)
  unfold step?
  rw [List.reverse_append, List.reverse_cons, List.append_assoc, List.find?_append, hback]
  simp

theorem id_not_mem_of_nodup {back : List CompiledStep}
    (hn : ((front ++ s :: back).map CompiledStep.id).Nodup) :
    s.id ∉ back.map CompiledStep.id := by
  rw [List.map_append, List.map_cons, List.nodup_append, List.nodup_cons] at hn
  exact hn.2.1.1

/-- A step with activities is linked to a later one that names it. -/
theorem link_of_step? {back : List CompiledStep} (hsteps : b.steps = front ++ t :: back)
    (hs : ({ b with steps := front } : Build).step? s.id = some s) (hsn : s.activities ≠ [])
    (h : s.id ∈ t.dependsOn) :
    b.Link s t := by
  have hmem : s ∈ b.steps := by
    rw [hsteps]
    exact List.mem_append_left _ (mem_steps_of_step? hs).1
  refine ⟨hmem, hsn, front, back, hsteps, ?_⟩
  intro x hx
  refine List.mem_append_left _ (List.mem_flatMap.mpr ⟨s.id, h, ?_⟩)
  unfold activitiesOf
  rw [hs]
  exact hx

/-- Where steps have distinct ids, a step with activities is linked to the steps that name it. -/
theorem Accounted.link_of_mem_dependsOn (hb : Accounted b)
    (hn : (b.steps.map CompiledStep.id).Nodup)
    (hs : s ∈ b.steps) (ht : t ∈ b.steps) (hsn : s.activities ≠ []) (h : s.id ∈ t.dependsOn) :
    b.Link s t := by
  obtain ⟨front, back, hsplit⟩ := List.append_of_mem ht
  obtain ⟨u, hu, hid⟩ := List.mem_map.mp (hb.dependsOn front t back hsplit h)
  have hus : u = s := by
    refine Sequence.eq_of_name_eq hn ?_ hs hid
    rw [hsplit]
    exact List.mem_append_left _ hu
  subst hus
  obtain ⟨front', back', rfl⟩ := List.append_of_mem hu
  rw [hsplit, List.map_append, List.nodup_append] at hn
  exact link_of_step? hsplit (step?_of_last (id_not_mem_of_nodup hn.1)) hsn h

/-! ### The order of the steps themselves -/

/-- No activity of a step runs before one of an earlier step. -/
theorem Accounted.not_runsBefore_earlier (hb : Accounted b) (hg : b.graph.Grounded)
    {back : List CompiledStep} (hsteps : b.steps = front ++ back) (hs : s ∈ front) (ht : t ∈ back)
    (hx : x ∈ s.activities) (hy : y ∈ t.activities) :
    ¬ b.graph.RunsBefore y x := by
  intro hrun
  have hids := hb.activities
  rw [hsteps, List.flatMap_append, List.map_eq_append_iff] at hids
  obtain ⟨as, bs, hsplit, has, hbs⟩ := hids
  have hn := b.graph.nodup_activityIds
  have hwork := hg.work
  unfold Workflow.Graph.RunsBefore at hrun
  rw [hsplit] at hn hwork hrun
  have hxas : x ∈ as.map Activity.id := by
    rw [has]
    exact List.mem_flatMap.mpr ⟨s, hs, hx⟩
  have hyas : y ∈ as.map Activity.id := hwork.mem_front_of_transGen hn hrun hxas
  have hybs : y ∈ bs.map Activity.id := by
    rw [hbs]
    exact List.mem_flatMap.mpr ⟨t, ht, hy⟩
  rw [List.map_append, List.nodup_append] at hn
  exact hn.2.2 y hyas y hybs rfl

end Build

/-! ### The order of compiled steps -/

/-- The step `t` says that it waits for the step `s`. -/
def Names (pl : Pipeline) (s t : CompiledStep) : Prop :=
  s ∈ pl.steps ∧ t ∈ pl.steps ∧ s.id ∈ t.dependsOn

namespace Compiler

variable {c : Compiler} {d : Definition} {pl : Pipeline}

theorem accounted_built {b : Build} (h : c.built d = .ok b) : b.Accounted := by
  obtain ⟨p, _, start, _, h⟩ := built_eq_ok_iff.mp h
  exact accounted_build h

/-- The order of activities in a compiled pipeline is that of its build. -/
theorem runsBefore_compiled {b : Build} (hb : c.built d = .ok b)
    (hgraph : pl.graph = b.graph.reduced) :
    pl.graph.RunsBefore = b.graph.RunsBefore := by
  rw [hgraph]
  exact (grounded_built hb).runsBefore_reduced

/-- In a compiled pipeline, all activities of one step run before all of another one exactly when
one of the steps has no activities or a chain of links leads from the one to the other.  Where steps
have distinct ids, every chain of steps with activities that wait for each other is such a chain. -/
theorem forall_runsBefore_iff_linked (h : c.withoutHooks.compile d = .ok pl) :
    ∃ b, c.built d = .ok b ∧ pl.steps = b.steps ∧
      (∀ s ∈ pl.steps, ∀ t ∈ pl.steps,
        (∀ x ∈ s.activities, ∀ y ∈ t.activities, pl.graph.RunsBefore x y) ↔
          s.activities = [] ∨ t.activities = [] ∨ TransGen b.Link s t) ∧
      ((pl.steps.map CompiledStep.id).Nodup →
        ∀ s t, TransGen (fun s t => Names pl s t ∧ s.activities ≠ []) s t →
          ∀ x ∈ s.activities, ∀ y ∈ t.activities, pl.graph.RunsBefore x y) := by
  rw [compile_withoutHooks] at h
  obtain ⟨b, hb, hgraph, hsteps⟩ := compileDefinition_cases h
  have haccounted := accounted_built hb
  rw [runsBefore_compiled hb hgraph, hsteps]
  refine ⟨b, hb, rfl, ?_, ?_⟩
  · intro s hs t ht
    exact haccounted.forall_runsBefore_iff (grounded_built hb) hs ht
  · intro hn s t hchain x hx y hy
    have hlinked : TransGen b.Link s t := by
      refine hchain.lift id ?_
      rintro u v ⟨⟨hu, hv, hid⟩, hne⟩
      rw [hsteps] at hu hv
      exact haccounted.link_of_mem_dependsOn hn hu hv hne hid
    exact Build.runsBefore_of_linked haccounted hlinked hx hy

theorem forall_runsBefore_iff_linked_clicks :
    ∃ pl b, sample.withoutHooks.compile clicks = .ok pl ∧ sample.built clicks = .ok b ∧
      (∀ s ∈ pl.steps, ∀ t ∈ pl.steps,
        (∀ x ∈ s.activities, ∀ y ∈ t.activities, pl.graph.RunsBefore x y) ↔
          s.activities = [] ∨ t.activities = [] ∨ TransGen b.Link s t) ∧
      ((pl.steps.map CompiledStep.id).Nodup →
        ∀ s t, TransGen (fun s t => Names pl s t ∧ s.activities ≠ []) s t →
          ∀ x ∈ s.activities, ∀ y ∈ t.activities, pl.graph.RunsBefore x y) := by
  have hbuilt : (sample.built clicks).isOk = true := by decide +kernel
  obtain ⟨b, hb⟩ := exists_ok_of_isOk hbuilt
  obtain ⟨pl, hpl⟩ := exists_compileDefinition hb
  rw [← compile_withoutHooks] at hpl
  obtain ⟨b', hb', _, hiff, hnamed⟩ := forall_runsBefore_iff_linked hpl
  exact ⟨pl, b', hpl, hb', hiff, hnamed⟩

/-! ### A step without activities -/

/-- A job, a directory that waits for it, and a job that reads the directory. -/
def staged : Definition where
  name := "staged"
  frequency := .oneTime
  steps := [
    describe "emr-step" "make" [("step_string", "make.jar")],
    { describe "extract-s3" "made" [("directory_uri", "s3://landing/made/")] with
      dependsOn := ["make"] },
    describe "emr-step" "read" [("step_string", "read.jar")]]

/-- What the order of steps and activities depends on: of each step the id, the role, the activities
and the steps that it waits for, and of each activity the id and the activities that it waits for. -/
structure Outline where
  steps : List (String × Role × List ObjectId × List String)
  activities : List (ObjectId × List ObjectId)
  deriving DecidableEq

/-- The outline of a build. -/
def outline (b : Build) : Outline where
  steps := b.steps.map fun s => (s.id, s.role, s.activities, s.dependsOn)
  activities := b.graph.activities.map fun a => (a.id, a.dependsOn)

/-- What can be read off an outline: the steps of the compiled pipeline, and that an activity that
no other one waits for runs before none. -/
theorem compile_of_outline {o : Outline} (h : (c.built d).toOption.map outline = some o) :
    ∃ pl, c.withoutHooks.compile d = .ok pl ∧
      (∀ v ∈ o.steps, ∃ s ∈ pl.steps, (s.id, s.role, s.activities, s.dependsOn) = v) ∧
      ∀ x y, (∀ a ∈ o.activities, x ∉ a.2) → ¬ pl.graph.RunsBefore x y := by
  obtain ⟨b, hb, rfl⟩ := exists_ok_of_map_toOption h
  obtain ⟨pl, hpl⟩ := exists_compileDefinition hb
  obtain ⟨b', hb', hgraph, hsteps⟩ := compileDefinition_cases hpl
  rw [hb] at hb'
  cases hb'
  rw [← compile_withoutHooks] at hpl
  refine ⟨pl, hpl, ?_, ?_⟩
  · intro v hv
    rw [hsteps]
    exact List.mem_map.mp hv
  · intro x y hx hrun
    rw [runsBefore_compiled hb hgraph] at hrun
    obtain ⟨a, ha, hxa⟩ := Workflow.Graph.exists_waiting_of_runsBefore hrun
    exact hx _ (List.mem_map_of_mem ha) hxa

/-- The directory has no activity that would wait for the job that makes it, so that the job that
reads the directory does not wait for that job. -/
theorem not_runsBefore_behind_empty :
    ∃ pl s t, sample.withoutHooks.compile staged = .ok pl ∧ TransGen (Names pl) s t ∧
      ∃ x ∈ s.activities, ∃ y ∈ t.activities, ¬ pl.graph.RunsBefore x y := by
  have houtline : (sample.built staged).toOption.map outline = some
      ⟨[("make", .step, ["make"], []), ("made", .step, [], ["make"]),
          ("read", .step, ["read"], ["made"])],
        [("make", []), ("read", [])]⟩ := by decide +kernel
  obtain ⟨pl, hpl, hstep, hunneeded⟩ := compile_of_outline houtline
  obtain ⟨s, hs, hsv⟩ := hstep ("make", .step, ["make"], []) (by decide)
  obtain ⟨u, hu, huv⟩ := hstep ("made", .step, [], ["make"]) (by decide)
  obtain ⟨t, ht, htv⟩ := hstep ("read", .step, ["read"], ["made"]) (by decide)
  simp only [Prod.mk.injEq] at hsv huv htv
  refine ⟨pl, s, t, hpl, ?_, "make", ?_, "read", ?_, hunneeded _ _ (by decide)⟩
  · refine .tail (.single ⟨hs, hu, ?_⟩) ⟨hu, ht, ?_⟩
    · simp [hsv, huv]
    · simp [huv, htv]
  · simp [hsv]
  · simp [htv]

end Compiler

end EtlFlow.Pipeline
