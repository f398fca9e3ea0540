import EtlFlow.Proofs.Pipeline.Bootstrap
/-!
# How far a plan is worked off

The steps of a pipeline come from the definition, from the lists of its machines and from the
teardown, each in its order (`Plan.Plans`).  How many of each are placed is the `Tally` of a
build.  What holds of the first build, and what each machine that is added and each planned step
that is placed keeps, holds of the whole build, and only single changes fail (`Keeps.build`).
-/

namespace EtlFlow.Pipeline

open Outcome
open Step (Machine Descriptor)

/-! ### Planned steps -/

/-- Where the steps of a pipeline come from. -/
inductive Origin where
  | definition
  | machine (m : Machine)
  | teardown
  deriving DecidableEq

/-- How many steps of each origin are placed. -/
abbrev Tally := Origin → ℕ

/-- The progress when one more step of an origin is placed. -/
def Tally.advance (P : Tally) (o : Origin) : Tally := Function.update P o (P o + 1)

theorem Tally.advance_self (P : Tally) (o : Origin) : P.advance o o = P o + 1 :=
  Function.update_self _ _ _

theorem Tally.advance_of_ne (P : Tally) {o o' : Origin} (h : o' ≠ o) : P.advance o o' = P o' :=
  Function.update_of_ne h _ _

theorem Tally.lt_advance (P : Tally) (o : Origin) : P o < P.advance o o := by
  rw [P.advance_self]
  exact Nat.lt_succ_self _

theorem Tally.le_advance (P : Tally) (o o' : Origin) : P o' ≤ P.advance o o' := by
  by_cases h : o' = o
  · rw [h]
    exact (P.lt_advance o).le
  · rw [P.advance_of_ne h]

/-- The step at a position of an origin. -/
inductive Plan.Plans (p : Plan) : Origin → ℕ → PlannedStep → Prop
  | step {k : ℕ} {d : Descriptor} {id : String} (hd : p.definition.steps[k]? = some d)
      (hid : p.stepId "" d k = .ok id) :
      Plans p .definition k { descriptor := d, id, role := .step }
  | bootstrap {m : Machine} {k : ℕ} {v : Yaml.Value} {d : Descriptor} {id : String}
      {after : List String} (hv : (p.bootstrap m)[k]? = some v) (hd : Descriptor.ofValue v = .ok d)
      (hid : p.stepId (Build.bootstrapStart m) d k = .ok id) :
      Plans p (.machine m) k { descriptor := d, id, role := .bootstrap, after }
  | teardown {d : Descriptor} {type : Step.StepType} {after : List String}
      (hd : p.teardown? = .ok (some d)) (htype : p.resolve d = .ok type) :
      Plans p .teardown 0 {
        descriptor := d
        id := d.name.getD ("Teardown" ++ type.kind.idStart)
        role := .teardown
        after }

/-- A property of builds at a progress that every change keeps, where the changes fail with
permitted errors only. -/
structure Keeps (p : Plan) (I : Tally → Build → Prop) (E : Error → Prop) : Prop where
  step : ∀ e, E (.step e)
  repeated : ∀ P b o s, I P b → p.Plans o (P o) s → (b.step? s.id).isSome = true →
    E (.input (.repeatedStep s.id))
  machine : ∀ P b m, I P b → b.isReady m = false → Meets (I P) E (b.addMachine p m)
  place : ∀ P b o s type, I P b → p.Plans o (P o) s → p.resolve s.descriptor = .ok type →
    Meets (I (P.advance o)) E (Build.place p s type b)
  preparation : ∀ P b m id, I P b → I P (b.addPreparation (b.activitiesOf id) m)

namespace Keeps

variable {p : Plan} {I : Tally → Build → Prop} {E : Error → Prop} {P P₁ P₂ : Tally}
  {b b₁ b₂ : Build} {m : Machine} {o : Origin} {s : PlannedStep}
  {f : Machine → Build → Except Error Build}

/-! ### Tally of machines -/

/-- The list of a machine that is not there is not begun. -/
def Fresh (P : Tally) (b : Build) : Prop := ∀ m, b.isReady m = false → P (.machine m) = 0

/-- The steps of the origin can be placed. -/
def Open (b : Build) : Origin → Prop
  | .machine m => b.isReady m = true
  | _ => True

/-- The later progress differs only for machines that came in meanwhile. -/
def Agrees (P : Tally) (b : Build) (P₁ : Tally) (b₁ : Build) : Prop :=
  ∀ o, Open b o → Open b₁ o ∧ P₁ o = P o

/-- A build is reached with a progress, but for machines that come in. -/
def Reaches (I : Tally → Build → Prop) (P : Tally) (b b' : Build) : Prop :=
  ∃ P', I P' b' ∧ Fresh P' b' ∧ Agrees P b P' b'

theorem Agrees.refl (P : Tally) (b : Build) : Agrees P b P b := fun _ ho => ⟨ho, rfl⟩

theorem Agrees.trans (h : Agrees P b P₁ b₁) (h' : Agrees P₁ b₁ P₂ b₂) : Agrees P b P₂ b₂ := by
  intro o ho
  obtain ⟨ho₁, h₁⟩ := h o ho
  obtain ⟨ho₂, h₂⟩ := h' o ho₁
  exact ⟨ho₂, h₂.trans h₁⟩

theorem Agrees.update (h : Agrees P b P₁ b₁) (o : Origin) (n : ℕ) :
    Agrees (Function.update P o n) b (Function.update P₁ o n) b₁ := by
  intro o' ho'
  refine ⟨(h o' ho').1, ?_⟩
  by_cases hoo : o' = o
  · rw [hoo, Function.update_self, Function.update_self]
  · rw [Function.update_of_ne hoo, Function.update_of_ne hoo, (h o' ho').2]

theorem Agrees.advance (h : Agrees P b P₁ b₁) (ho : Open b o) :
    Agrees (P.advance o) b (P₁.advance o) b₁ := by
  rw [Tally.advance, Tally.advance, (h o ho).2]
  exact h.update o _

/-- What follows on a step that is placed, when `n` more steps of its origin are. -/
theorem Agrees.rest (h : Agrees (P.advance o) b P₁ b₁) (position n : ℕ) :
    Agrees (Function.update P o (position + (n + 1))) b
      (Function.update P₁ o (position + 1 + n)) b₁ := by
  have hmore := h.update o (position + 1 + n)
  rw [Tally.advance, Function.update_idem] at hmore
  rw [Nat.add_comm n, ← Nat.add_assoc]
  exact hmore

theorem Reaches.of_agrees (h : Agrees P b P₁ b₁) (h' : Reaches I P₁ b₁ b₂) : Reaches I P b b₂ := by
  obtain ⟨P₂, hI, hfresh, hagrees⟩ := h'
  exact ⟨P₂, hI, hfresh, h.trans hagrees⟩

theorem Agrees.of_isReady (h : ∀ m, b₁.isReady m = b.isReady m) : Agrees P b P b₁ := by
  rintro (_ | m | _) ho
  · exact ⟨trivial, rfl⟩
  · exact ⟨(h m).trans ho, rfl⟩
  · exact ⟨trivial, rfl⟩

theorem Fresh.of_isReady (hfresh : Fresh P b) (h : ∀ m, b₁.isReady m = b.isReady m) : Fresh P b₁ :=
  fun m hm => hfresh m (h m ▸ hm)

theorem Fresh.advance (hfresh : Fresh P b) (ho : Open b o) : Fresh (P.advance o) b := by
  intro m hm
  have hne : Origin.machine m ≠ o := by
    rintro rfl
    rw [show b.isReady m = true from ho] at hm
    cases hm
  rw [Tally.advance_of_ne P hne]
  exact hfresh m hm

/-! ### Expanding a step -/

theorem resolves (hk : Keeps p I E) (d : Descriptor) :
    Meets (fun type => p.resolve d = .ok type) E (p.resolve d) := by
  refine (meets_mapError fun e _ => hk.step e).imp_ok fun type htype _ => ?_
  exact htype

theorem names (hk : Keeps p I E) (start : String) (d : Descriptor) (position : ℕ) :
    Meets (fun id => p.stepId start d position = .ok id) E (p.stepId start d position) := by
  refine ⟨fun id hid => hid, fun e he => ?_⟩
  unfold Plan.stepId at he
  split at he
  · cases he
  · rcases bind_eq_error_iff.mp he with he | ⟨_, _, he⟩
    · exact (hk.resolves d).2 e he
    · cases he

/-- The first of the elements behind a position, and those behind it. -/
theorem of_drop_eq_cons {α : Type} {as rest : List α} {position : ℕ} {a : α}
    (h : as.drop position = a :: rest) : as[position]? = some a ∧ as.drop (position + 1) = rest :=
  ⟨by rw [← List.head?_drop, h, List.head?_cons], by rw [← List.tail_drop, h, List.tail_cons]⟩

/-- What is required of preparing a machine. -/
def Prepares (I : Tally → Build → Prop) (E : Error → Prop)
    (f : Machine → Build → Except Error Build) : Prop :=
  ∀ P b m, I P b → Fresh P b → Meets (Reaches I P b) E (f m b)

theorem expandWith (hk : Keeps p I E) (hf : Prepares I E f) (hI : I P b) (hfresh : Fresh P b)
    (hs : p.Plans o (P o) s) (ho : Open b o) :
    Meets (Reaches I (P.advance o) b) E (Build.expandWith p f s b) := by
  simp only [Build.expandWith]
  split
  · next hthere => exact meets_error (hk.repeated P b o s hI hs hthere)
  · refine (hk.resolves s.descriptor).bind fun type htype => ?_
    refine (hf P b _ hI hfresh).bind fun b₁ hb₁ => ?_
    obtain ⟨P₁, hI₁, hfresh₁, hagrees⟩ := hb₁
    obtain ⟨ho₁, hpos⟩ := hagrees o ho
    rw [← hpos] at hs
    refine (hk.place P₁ b₁ o s type hI₁ hs htype).imp_ok fun b₂ hb₂ hI₂ => ?_
    have hready := Build.isReady_place hb₂
    refine ⟨_, hI₂, (hfresh₁.advance ho₁).of_isReady hready, ?_⟩
    exact (hagrees.advance ho).trans (Agrees.of_isReady hready)

/-! ### Preparing a machine -/

/-- By induction on the rest of the list of a machine that is there. -/
theorem expandBootstrap (hk : Keeps p I E) (hf : Prepares I E f) {position : ℕ}
    {previous : Option String} {vs : List Yaml.Value} (hI : I P b) (hfresh : Fresh P b)
    (hready : b.isReady m = true) (hposition : P (.machine m) = position)
    (hvs : (p.bootstrap m).drop position = vs) :
    Meets (Reaches I (Function.update P (.machine m) (position + vs.length)) b) E
      (Build.expandBootstrap p (Build.expandWith p f) m position previous vs b) := by
  induction vs generalizing position previous P b with
  | nil =>
      refine meets_ok ⟨P, hI, hfresh, ?_⟩
      rw [List.length_nil, Nat.add_zero, ← hposition, Function.update_eq_self]
      exact Agrees.refl P b
  | cons v vs ih =>
      obtain ⟨hv, hvs'⟩ := of_drop_eq_cons hvs
      refine (meets_mapError fun e _ => hk.step e).bind fun d hd => ?_
      refine (hk.names _ d position).bind fun id hid => ?_
      rw [← hposition] at hv hid
      refine (hk.expandWith hf hI hfresh (.bootstrap hv hd hid) hready).bind fun b₁ hb₁ => ?_
      obtain ⟨P₁, hI₁, hfresh₁, hagrees⟩ := hb₁
      obtain ⟨hready₁, hposition₁⟩ := hagrees (.machine m) hready
      rw [Tally.advance_self, hposition] at hposition₁
      have hsame := Build.isReady_addPreparation b₁ (b₁.activitiesOf id) m
      refine (ih (hk.preparation P₁ b₁ m _ hI₁) (hfresh₁.of_isReady hsame) ((hsame m).trans hready₁)
        hposition₁ hvs').imp_ok fun b₂ _ hb₂ => Reaches.of_agrees ?_ hb₂
      exact (hagrees.trans (Agrees.of_isReady hsame)).rest position vs.length

/-- By induction on how many machines may need each other. -/
theorem prepare (hk : Keeps p I E) (depth : ℕ) : Prepares I E (Build.prepare p depth) := by
  induction depth with
  | zero => exact fun P b m hI hfresh => meets_ok ⟨P, hI, hfresh, Agrees.refl P b⟩
  | succ depth ih =>
      intro P b m hI hfresh
      unfold Build.prepare
      by_cases hready : b.isReady m = true
      · rw [if_pos hready]
        exact meets_ok ⟨P, hI, hfresh, Agrees.refl P b⟩
      · rw [if_neg hready]
        have hnot : b.isReady m = false := Bool.eq_false_iff.mpr hready
        have hadded := (hk.machine P b m hI hnot).imp_ok fun b₁ h₁ hI₁ => And.intro h₁ hI₁
        refine hadded.bind fun b₁ hb₁ => ?_
        obtain ⟨h₁, hI₁⟩ := hb₁
        have hfresh₁ : Fresh P b₁ := by
          intro k hk
          by_cases hkm : k = m
          · rw [hkm]
            exact hfresh m hnot
          · rw [Build.isReady_addMachine_of_ne h₁ hkm] at hk
            exact hfresh k hk
        refine (hk.expandBootstrap ih hI₁ hfresh₁ (Build.isReady_addMachine h₁) (hfresh m hnot)
          List.drop_zero).imp_ok fun b₂ _ hb₂ => ?_
        obtain ⟨P₂, hI₂, hfresh₂, hagrees⟩ := hb₂
        refine ⟨P₂, hI₂, hfresh₂, fun o ho => ?_⟩
        have hne : o ≠ .machine m := by
          rintro rfl
          exact hready ho
        have ho₁ : Open b₁ o := by
          cases o with
          | machine k => exact (Build.sameSteps_addMachine h₁).ready k ho
          | _ => trivial
        obtain ⟨ho₂, hsame⟩ := hagrees o ho₁
        exact ⟨ho₂, hsame.trans (Function.update_of_ne hne _ _)⟩

theorem expand (hk : Keeps p I E) (hI : I P b) (hfresh : Fresh P b) (hs : p.Plans o (P o) s)
    (ho : Open b o) : Meets (Reaches I (P.advance o) b) E (Build.expand p s b) :=
  hk.expandWith (hk.prepare Build.machines) hI hfresh hs ho

/-! ### All steps -/

/-- By induction on the rest of the definition. -/
theorem expandSteps (hk : Keeps p I E) {position : ℕ} {ds : List Descriptor} (hI : I P b)
    (hfresh : Fresh P b) (hposition : P .definition = position)
    (hds : p.definition.steps.drop position = ds) :
    Meets (Reaches I (Function.update P .definition (position + ds.length)) b) E
      (Build.expandSteps p position ds b) := by
  induction ds generalizing position P b with
  | nil =>
      refine meets_ok ⟨P, hI, hfresh, ?_⟩
      rw [List.length_nil, Nat.add_zero, ← hposition, Function.update_eq_self]
      exact Agrees.refl P b
  | cons d ds ih =>
      obtain ⟨hd, hds'⟩ := of_drop_eq_cons hds
      refine (hk.names "" d position).bind fun id hid => ?_
      rw [← hposition] at hd hid
      refine (hk.expand hI hfresh (.step hd hid) trivial).bind fun b₁ hb₁ => ?_
      obtain ⟨P₁, hI₁, hfresh₁, hagrees⟩ := hb₁
      have hposition₁ := (hagrees .definition trivial).2
      rw [Tally.advance_self, hposition] at hposition₁
      refine (ih hI₁ hfresh₁ hposition₁ hds').imp_ok fun b₂ _ hb₂ => Reaches.of_agrees ?_ hb₂
      exact hagrees.rest position ds.length

theorem expandTeardown (hk : Keeps p I E) (hI : I P b) (hfresh : Fresh P b)
    (hnone : P .teardown = 0) :
    Meets (fun b' => ∃ P', I P' b' ∧ P' .definition = P .definition) E
      (Build.expandTeardown p b) := by
  have hteardown : Meets (fun t => p.teardown? = .ok t) E p.teardown? := by
    refine ⟨fun t ht => ht, fun e he => ?_⟩
    unfold Plan.teardown? at he
    split at he
    · cases he
    · obtain ⟨cause, _, rfl⟩ := mapError_eq_error_iff.mp he
      exact hk.step cause
  refine hteardown.bind fun t ht => ?_
  cases t with
  | none => exact meets_ok ⟨P, hI, rfl⟩
  | some d =>
      refine (hk.resolves d).bind fun type htype => ?_
      refine (hk.prepare _ P b type.kind.machine hI hfresh).bind fun b₁ hb₁ => ?_
      obtain ⟨P₁, hI₁, hfresh₁, hagrees⟩ := hb₁
      have hplans : p.Plans .teardown 0 {
          descriptor := d
          id := d.name.getD ("Teardown" ++ type.kind.idStart)
          role := .teardown
          after := b₁.steps.map (·.id) } := .teardown ht htype
      rw [← hnone, ← (hagrees .teardown trivial).2] at hplans
      refine (hk.expand hI₁ hfresh₁ hplans trivial).imp_ok fun b₂ _ hb₂ => ?_
      obtain ⟨P₂, hI₂, _, hagrees₂⟩ := hb₂
      refine ⟨P₂, hI₂, (hagrees₂ .definition trivial).2.trans ?_⟩
      rw [Tally.advance_of_ne P₁ (by simp)]
      exact (hagrees .definition trivial).2

/-- What holds of the objects that every pipeline has, and is kept, holds of the whole build, when
all steps of the definition are placed. -/
theorem build (hk : Keeps p I E) {start : Time.Instant}
    (hbase : Meets (I fun _ => 0) E (Compiler.base p start)) :
    Meets (fun b => ∃ P, I P b ∧ P .definition = p.definition.steps.length) E
      (Compiler.build p start) := by
  refine (hbase.imp_ok fun b₀ h₀ hI₀ => And.intro h₀ hI₀).bind fun b₀ hb₀ => ?_
  obtain ⟨_, hI₀⟩ := hb₀
  have hfresh₀ : Fresh (fun _ => 0) b₀ := fun _ _ => rfl
  refine (hk.expandSteps hI₀ hfresh₀ rfl List.drop_zero).bind fun b₁ hb₁ => ?_
  obtain ⟨P₁, hI₁, hfresh₁, hagrees⟩ := hb₁
  refine (hk.expandTeardown hI₁ hfresh₁ (hagrees .teardown trivial).2).imp_ok fun b hb h => ?_
  obtain ⟨P, hI, hdefinition⟩ := h
  refine ⟨P, hI, hdefinition.trans ((hagrees .definition trivial).2.trans ?_)⟩
  rw [Function.update_self, Nat.zero_add]

end Keeps

end EtlFlow.Pipeline
