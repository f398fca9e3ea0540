import EtlFlow.Proofs.Pipeline.Bootstrap
/-!
# Machines within machines

Preparing a machine expands steps, which may need another machine, which is prepared first.  A
machine is recorded before its steps are expanded, so fewer machines are missing at each level
(`missing_addMachine_lt`), and the third level finds all of them: what would happen below it does
not matter (`iterate_prepareLevel`).  On the way each step gets its machine, and no machine comes in
that no step runs on (`Supplied`).
-/

namespace EtlFlow.Pipeline

open Outcome
open Sequence (AtEach)
open Step (Machine Descriptor)

namespace Build

variable {p : Plan} {b b' b₁ b₂ : Build} {m k : Machine} {s : PlannedStep} {type : Step.StepType}
  {f g : Machine → Build → Except Error Build} {position : ℕ} {previous : Option String}
  {vs : List Yaml.Value}

/-! ### Levels -/

/-- One level of preparing a machine, where `inner` prepares the machines of its steps. -/
def prepareLevel (p : Plan) (inner : Machine → Build → Except Error Build) (m : Machine)
    (b : Build) : Except Error Build :=
  if b.isReady m then .ok b
  else do
    let b ← b.addMachine p m
    expandBootstrap p (expandWith p inner) m 0 none (p.bootstrap m) b

theorem prepare_succ (depth : ℕ) : prepare p (depth + 1) = prepareLevel p (prepare p depth) := rfl

theorem prepareLevel_of_isReady (h : b.isReady m = true) : prepareLevel p f m b = .ok b :=
  if_pos h

theorem prepare_of_isReady (h : b.isReady m = true) (depth : ℕ) : prepare p depth m b = .ok b := by
  cases depth with
  | zero => rfl
  | succ depth => exact prepareLevel_of_isReady h

/-! ### What is missing -/

/-- How many machines are not there yet. -/
def missing (b : Build) : ℕ := [Machine.ec2, .emr].countP fun m => !b.isReady m

theorem missing_le (b : Build) : b.missing ≤ machines := List.countP_le_length

theorem isReady_of_missing_eq_zero (h : b.missing = 0) (m : Machine) : b.isReady m = true := by
  cases m with
  | none => rfl
  | _ => simpa using List.countP_eq_zero.mp h _ (by simp)

theorem missing_le_of_isReady (h : ∀ k, b.isReady k = true → b'.isReady k = true) :
    b'.missing ≤ b.missing := by
  apply List.countP_mono_left
  intro k _ hk
  rw [Bool.not_eq_true', Bool.eq_false_iff] at hk ⊢
  exact fun hready => hk (h k hready)

/-- A machine that is added is missing no more. -/
theorem missing_addMachine_lt (hm : b.isReady m = false) (h : b.addMachine p m = .ok b') :
    b'.missing < b.missing := by
  have hready := isReady_addMachine h
  have hother (k : Machine) (hk : k ≠ m) : b'.isReady k = b.isReady k :=
    isReady_addMachine_of_ne h hk
  cases m with
  | ec2 => simp [missing, List.countP_cons, hm, hready, hother .emr]
  | emr => simp [missing, List.countP_cons, hm, hready, hother .ec2]
  | none => cases hm

/-- Preparing takes no machine away. -/
def KeepsMachines (f : Machine → Build → Except Error Build) : Prop :=
  ∀ m b b', f m b = .ok b' → ∀ k, b.isReady k = true → b'.isReady k = true

theorem isReady_expandWith (hf : KeepsMachines f) (h : expandWith p f s b = .ok b')
    (hk : b.isReady k = true) : b'.isReady k = true := by
  simp only [expandWith, guard_eq_ok_iff, bind_eq_ok_iff] at h
  obtain ⟨_, type, _, b₁, h₁, hplace⟩ := h
  rw [isReady_place hplace]
  exact hf _ _ _ h₁ k hk

theorem isReady_expandBootstrap (hf : KeepsMachines f)
    (h : expandBootstrap p (expandWith p f) m position previous vs b = .ok b')
    (hk : b.isReady k = true) : b'.isReady k = true := by
  induction vs generalizing position previous b with
  | nil =>
      cases h
      exact hk
  | cons v vs ih =>
      simp only [expandBootstrap, bind_eq_ok_iff] at h
      obtain ⟨d, _, id, _, b₁, h₁, h⟩ := h
      refine ih h ?_
      rw [isReady_addPreparation]
      exact isReady_expandWith hf h₁ hk

theorem keepsMachines_prepare (depth : ℕ) : KeepsMachines (prepare p depth) := by
  induction depth with
  | zero =>
      intro m b b' h k hk
      cases h
      exact hk
  | succ depth ih =>
      intro m b b' h k hk
      rw [prepare_succ, prepareLevel] at h
      split at h
      · cases h
        exact hk
      · rw [bind_eq_ok_iff] at h
        obtain ⟨b₁, h₁, h⟩ := h
        exact isReady_expandBootstrap ih h ((sameSteps_addMachine h₁).ready k hk)

/-! ### Where preparing ends -/

theorem expandWith_congr (h : ∀ m, f m b = g m b) : expandWith p f s b = expandWith p g s b := by
  simp only [expandWith, h]

/-- The steps of a list are expanded alike by what prepares alike while no more machines are
missing. -/
theorem expandBootstrap_congr (hg : KeepsMachines g) {n : ℕ}
    (hfg : ∀ m b, b.missing ≤ n → f m b = g m b) (hb : b.missing ≤ n) :
    expandBootstrap p (expandWith p f) m position previous vs b =
      expandBootstrap p (expandWith p g) m position previous vs b := by
  induction vs generalizing position previous b with
  | nil => rfl
  | cons v vs ih =>
      unfold expandBootstrap
      refine bind_congr_of_ok fun d _ => bind_congr_of_ok fun id _ => ?_
      rw [expandWith_congr fun m => hfg m b hb]
      refine bind_congr_of_ok fun b₁ h₁ => ih ?_
      refine (missing_le_of_isReady fun k hk => ?_).trans hb
      rw [isReady_addPreparation]
      exact isReady_expandWith hg h₁ hk

/-- By induction on how many machines are missing: one level more than these never asks what would
happen below it. -/
theorem iterate_prepareLevel {n : ℕ} (hb : b.missing ≤ n) :
    (prepareLevel p)^[n + 1] f m b = prepare p n m b := by
  induction n generalizing m b with
  | zero => exact prepareLevel_of_isReady (isReady_of_missing_eq_zero (Nat.le_zero.mp hb) m)
  | succ n ih =>
      rw [Function.iterate_succ_apply', prepare_succ, prepareLevel, prepareLevel]
      by_cases hready : b.isReady m = true
      · rw [if_pos hready, if_pos hready]
      · rw [if_neg hready, if_neg hready]
        refine bind_congr_of_ok fun b₁ h₁ => ?_
        have hlt := missing_addMachine_lt (Bool.eq_false_iff.mpr hready) h₁
        exact expandBootstrap_congr (keepsMachines_prepare n) (fun m b hb => ih hb) (by omega)

/-- Whatever would happen below, three levels prepare all machines. -/
theorem iterate_prepareLevel_machines (f : Machine → Build → Except Error Build) :
    (prepareLevel p)^[machines + 1] f = prepare p machines :=
  funext fun _ => funext fun b => iterate_prepareLevel b.missing_le

/-- Preparing a machine is one level of it, with itself on the levels below. -/
theorem prepareLevel_prepare : prepareLevel p (prepare p machines) = prepare p machines :=
  iterate_prepareLevel_machines (prepare p 0)

/-! ### Machines for all steps -/

/-- When a step enters behind those of `front`, its id is new, unless it brings in its machine: then
the steps that come with that machine enter between the check of the id and the step. -/
def Entered (front : List CompiledStep) (t : CompiledStep) : Prop :=
  ∃ before brought, front = before ++ brought ∧ t.id ∉ before.map CompiledStep.id ∧
    (∀ s ∈ brought, s.role = .bootstrap) ∧
    (brought ≠ [] → ∀ s ∈ before, s.kind.machine ≠ t.kind.machine)

/-- The steps have their machines, and every machine has a step that runs on it, apart from those
whose first step is still to come. -/
structure Supplied (pending : List Machine) (b : Build) : Prop where
  equipped : ∀ s ∈ b.steps, b.isReady s.kind.machine = true
  needed : ∀ k, b.isReady k = true → k = .none ∨ k ∈ pending ∨ ∃ s ∈ b.steps, s.kind.machine = k
  entered : AtEach Entered b.steps

variable {pending : List Machine} {depth : ℕ}

theorem Supplied.settled (hb : b.Supplied pending) : b.Settled := fun s hs _ => hb.equipped s hs

theorem Supplied.cons (hb : b.Supplied pending) : b.Supplied (m :: pending) where
  equipped := hb.equipped
  needed k hk := (hb.needed k hk).imp_right (.imp_left (List.mem_cons_of_mem m))
  entered := hb.entered

theorem Supplied.addMachine (hb : b.Supplied pending) (h : b.addMachine p m = .ok b') :
    b'.Supplied (m :: pending) where
  equipped := by
    rw [(sameSteps_addMachine h).steps]
    exact fun s hs => (sameSteps_addMachine h).ready _ (hb.equipped s hs)
  needed := by
    intro k hk
    rw [(sameSteps_addMachine h).steps]
    by_cases hkm : k = m
    · rw [hkm]
      exact .inr (.inl List.mem_cons_self)
    · rw [isReady_addMachine_of_ne h hkm] at hk
      exact hb.cons.needed k hk
  entered := by
    rw [(sameSteps_addMachine h).steps]
    exact hb.entered

/-- The machine of a step that is placed has a step that runs on it. -/
theorem Supplied.place (hb : b.Supplied (type.kind.machine :: pending))
    (hready : b.isReady type.kind.machine = true)
    (hentered : ∀ t : CompiledStep, t.id = s.id → t.kind = type.kind → Entered b.steps t)
    (h : Build.place p s type b = .ok b') : b'.Supplied pending := by
  obtain ⟨c, hc, hid, _, hkind⟩ := steps_of_place h
  refine ⟨?_, ?_, ?_⟩
  · intro t ht
    rw [isReady_place h]
    rw [hc, List.mem_append, List.mem_singleton] at ht
    rcases ht with ht | rfl
    · exact hb.equipped t ht
    · rw [hkind]
      exact hready
  · intro k hk
    rw [isReady_place h] at hk
    rw [hc]
    rcases hb.needed k hk with hnone | hpending | ⟨t, ht, htk⟩
    · exact .inl hnone
    · rcases List.mem_cons.mp hpending with rfl | hpending
      · refine .inr (.inr ⟨c, List.mem_append_right _ List.mem_cons_self, ?_⟩)
        rw [hkind]
      · exact .inr (.inl hpending)
    · exact .inr (.inr ⟨t, List.mem_append_left _ ht, htk⟩)
  · rw [hc]
    exact Sequence.atEach_append_singleton.mpr ⟨hb.entered, hentered c hid hkind⟩

theorem Supplied.addPreparation (hb : b.Supplied pending) (ids : List Workflow.ObjectId) :
    (b.addPreparation ids m).Supplied pending where
  equipped := by
    rw [steps_addPreparation]
    intro s hs
    rw [isReady_addPreparation]
    exact hb.equipped s hs
  needed := by
    rw [steps_addPreparation]
    intro k hk
    rw [isReady_addPreparation] at hk
    exact hb.needed k hk
  entered := by
    rw [steps_addPreparation]
    exact hb.entered

/-! ### Preparing a machine -/

/-- What is required of preparing a machine. -/
def Supplies (p : Plan) (depth : ℕ) : Prop :=
  ∀ pending m b b', Supplied pending b → b.missing ≤ depth → prepare p depth m b = .ok b' →
    b'.Supplied (m :: pending) ∧ b'.isReady m = true

/-- A step enters when its machine is there. -/
theorem supplied_expandWith (hdepth : Supplies p depth) (hb : b.Supplied pending)
    (hmissing : b.missing ≤ depth) (h : expandWith p (prepare p depth) s b = .ok b') :
    b'.Supplied pending := by
  simp only [expandWith, guard_eq_ok_iff, bind_eq_ok_iff] at h
  obtain ⟨hnew, type, _, b₁, h₁, hplace⟩ := h
  obtain ⟨hb₁, hready⟩ := hdepth _ _ _ _ hb hmissing h₁
  obtain ⟨brought, hbrought, hrole⟩ := (prepares_prepare hb.settled h₁).1.steps
  refine hb₁.place hready ?_ hplace
  intro t hid hkind
  refine ⟨b.steps, brought, hbrought, ?_, hrole, ?_⟩
  · rw [hid]
    exact not_mem_ids_of_step? (Option.not_isSome_iff_eq_none.mp hnew)
  · intro hne q hq hqt
    have hthere : b.isReady type.kind.machine = true := by
      rw [← hkind, ← hqt]
      exact hb.equipped q hq
    rw [prepare_of_isReady hthere] at h₁
    cases h₁
    exact hne (List.self_eq_append_right.mp hbrought)

theorem supplied_expandBootstrap (hdepth : Supplies p depth) (hb : b.Supplied pending)
    (hmissing : b.missing ≤ depth)
    (h : expandBootstrap p (expandWith p (prepare p depth)) m position previous vs b = .ok b') :
    b'.Supplied pending := by
  induction vs generalizing position previous b with
  | nil =>
      cases h
      exact hb
  | cons v vs ih =>
      simp only [expandBootstrap, bind_eq_ok_iff] at h
      obtain ⟨d, _, id, _, b₁, h₁, h⟩ := h
      refine ih ((supplied_expandWith hdepth hb hmissing h₁).addPreparation _) ?_ h
      refine (missing_le_of_isReady fun k hk => ?_).trans hmissing
      rw [isReady_addPreparation]
      exact isReady_expandWith (keepsMachines_prepare depth) h₁ hk

/-- By induction on how many machines are missing. -/
theorem supplies (depth : ℕ) : Supplies p depth := by
  induction depth with
  | zero =>
      intro pending m b b' hb hmissing h
      cases h
      exact ⟨hb.cons, isReady_of_missing_eq_zero (Nat.le_zero.mp hmissing) m⟩
  | succ depth ih =>
      intro pending m b b' hb hmissing h
      by_cases hready : b.isReady m = true
      · rw [prepare_of_isReady hready] at h
        cases h
        exact ⟨hb.cons, hready⟩
      · rw [prepare_succ, prepareLevel, if_neg hready, bind_eq_ok_iff] at h
        obtain ⟨b₁, h₁, h⟩ := h
        have hlt := missing_addMachine_lt (Bool.eq_false_iff.mpr hready) h₁
        exact ⟨supplied_expandBootstrap ih (hb.addMachine h₁) (by omega) h,
          isReady_expandBootstrap (keepsMachines_prepare depth) h (isReady_addMachine h₁)⟩

/-! ### All steps -/

theorem supplied_expandSteps {ds : List Descriptor} (hb : b.Supplied pending)
    (h : expandSteps p position ds b = .ok b') : b'.Supplied pending := by
  induction ds generalizing position b with
  | nil =>
      cases h
      exact hb
  | cons d ds ih =>
      simp only [expandSteps, bind_eq_ok_iff] at h
      obtain ⟨id, _, b₁, h₁, h⟩ := h
      exact ih (supplied_expandWith (supplies machines) hb b.missing_le h₁) h

/-- The machine of the step behind all others is there before the id of that step is checked. -/
theorem supplied_expandTeardown (hb : b.Supplied pending) (h : expandTeardown p b = .ok b') :
    b'.Supplied pending := by
  simp only [expandTeardown, bind_eq_ok_iff] at h
  obtain ⟨t, _, h⟩ := h
  cases t with
  | none =>
      cases h
      exact hb
  | some d =>
      simp only [bind_eq_ok_iff] at h
      obtain ⟨type, htype, b₁, h₁, h⟩ := h
      obtain ⟨hb₁, hready⟩ := supplies machines _ _ _ _ hb b.missing_le h₁
      simp only [expand, expandWith, guard_eq_ok_iff, bind_eq_ok_iff, htype] at h
      obtain ⟨hnew, type', htype', b₂, h₂, hplace⟩ := h
      cases htype'
      rw [prepare_of_isReady hready] at h₂
      cases h₂
      refine hb₁.place hready ?_ hplace
      intro t hid _
      refine ⟨b₁.steps, [], (List.append_nil _).symm, ?_, List.forall_mem_nil _, absurd rfl⟩
      rw [hid]
      exact not_mem_ids_of_step? (Option.not_isSome_iff_eq_none.mp hnew)

end Build

theorem supplied_base {p : Plan} {start : Time.Instant} {b : Build}
    (h : Compiler.base p start = .ok b) : b.Supplied [] := by
  obtain ⟨_, _, _, _, rfl, _⟩ := base_spec h
  refine ⟨List.forall_mem_nil _, ?_, Sequence.atEach_nil⟩
  rintro (_ | _ | _) hk
  · cases hk
  · cases hk
  · exact .inl rfl

/-- At the end every machine has a step that runs on it. -/
theorem supplied_build {p : Plan} {start : Time.Instant} {b : Build}
    (h : Compiler.build p start = .ok b) : b.Supplied [] := by
  simp only [Compiler.build, bind_eq_ok_iff] at h
  obtain ⟨b₀, h₀, b₁, h₁, h⟩ := h
  exact Build.supplied_expandTeardown (Build.supplied_expandSteps (supplied_base h₀) h₁) h

end EtlFlow.Pipeline
