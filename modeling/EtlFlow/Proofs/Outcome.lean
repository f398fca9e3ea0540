import Mathlib.Tactic.Common
/-!
# Computations that may fail

A computation in steps succeeds when all of its steps do (`bind_eq_ok_iff`), and fails with the
error of the first step that fails (`bind_eq_error_iff`).  What all of its results have in common,
and what all of its errors have, is told step by step (`Meets.bind`).
-/

namespace EtlFlow.Outcome

variable {ε ε' α β : Type} {x : Except ε α} {f : α → Except ε β} {g : ε → ε'} {a c : α} {b : β}
  {e : ε} {e' : ε'}

theorem bind_eq_ok_iff : x >>= f = .ok b ↔ ∃ a, x = .ok a ∧ f a = .ok b := by
  cases x with
  | error e =>
      constructor
      · intro h
        cases h
      · rintro ⟨a, ha, _⟩
        cases ha
  | ok a =>
      constructor
      · intro h
        exact ⟨a, rfl, h⟩
      · rintro ⟨a', ha, h⟩
        cases ha
        exact h

theorem bind_eq_error_iff : x >>= f = .error e ↔ x = .error e ∨ ∃ a, x = .ok a ∧ f a = .error e := by
  cases x with
  | error e =>
      constructor
      · intro h
        cases h
        exact .inl rfl
      · rintro (h | ⟨a, ha, _⟩)
        · cases h
          rfl
        · cases ha
  | ok a =>
      constructor
      · intro h
        exact .inr ⟨a, rfl, h⟩
      · rintro (h | ⟨a', ha, h⟩)
        · cases h
        · cases ha
          exact h

/-- What comes behind a step matters only for what the step can come to. -/
theorem bind_congr_of_ok {f' : α → Except ε β} (h : ∀ a, x = .ok a → f a = f' a) :
    x >>= f = x >>= f' := by
  cases x with
  | error e => rfl
  | ok a => exact h a rfl

theorem map_eq_ok_iff {h : α → β} : x.map h = .ok b ↔ ∃ a, x = .ok a ∧ h a = b := by
  cases x <;> simp [Except.map]

theorem mapError_eq_ok_iff : x.mapError g = .ok a ↔ x = .ok a := by
  cases x <;> simp [Except.mapError]

theorem mapError_eq_error_iff : x.mapError g = .error e' ↔ ∃ e, x = .error e ∧ g e = e' := by
  cases x <;> simp [Except.mapError]

theorem pure_eq_ok_iff : (pure a : Except ε α) = .ok c ↔ a = c := by
  simp [pure, Except.pure]

theorem exists_ok_of_isOk (h : x.isOk = true) : ∃ a, x = .ok a := by
  cases x with
  | error e => cases h
  | ok a => exact ⟨a, rfl⟩

theorem exists_ok_of_map_toOption {f : α → β} (h : x.toOption.map f = some b) :
    ∃ a, x = .ok a ∧ f a = b := by
  cases x with
  | error e => cases h
  | ok a => exact ⟨a, rfl, Option.some.inj h⟩

/-- A step that only refuses lets everything else through. -/
theorem guard_eq_ok_iff {p : Prop} [Decidable p] {y : Except ε β} :
    (if p then throw e >>= f else y) = .ok b ↔ ¬ p ∧ y = .ok b := by
  by_cases hp : p
  · rw [if_pos hp]
    constructor
    · intro h
      cases h
    · rintro ⟨hnp, _⟩
      exact absurd hp hnp
  · rw [if_neg hp]
    exact ⟨fun h => ⟨hp, h⟩, And.right⟩

/-! ### What every outcome has -/

/-- Whatever it comes to has a property. -/
def Yields (P : α → Prop) (x : Except ε α) : Prop := ∀ a, x = .ok a → P a

theorem yields_bind {Q : β → Prop} : Yields Q (x >>= f) ↔ ∀ a, x = .ok a → Yields Q (f a) := by
  simp only [Yields, bind_eq_ok_iff]
  exact ⟨fun h a ha b hb => h b ⟨a, ha, hb⟩, fun h b ⟨a, ha, hb⟩ => h a ha b hb⟩

/-- Whatever it comes to has a property, and whatever it fails with has another one. -/
def Meets (P : α → Prop) (E : ε → Prop) (x : Except ε α) : Prop :=
  Yields P x ∧ ∀ e, x = .error e → E e

section Meets

variable {P P' : α → Prop} {Q : β → Prop} {E : ε → Prop} {E' : ε' → Prop}

theorem meets_ok (ha : P a) : Meets P E (.ok a) :=
  ⟨fun _ h => Except.ok.inj h ▸ ha, nofun⟩

theorem meets_error (he : E e) : Meets P E (.error e) :=
  ⟨nofun, fun _ h => Except.error.inj h ▸ he⟩

theorem Meets.bind (hx : Meets P E x) (hf : ∀ a, P a → Meets Q E (f a)) : Meets Q E (x >>= f) := by
  refine ⟨yields_bind.mpr fun a ha => (hf a (hx.1 a ha)).1, fun e h => ?_⟩
  rcases bind_eq_error_iff.mp h with h | ⟨a, ha, h⟩
  · exact hx.2 e h
  · exact (hf a (hx.1 a ha)).2 e h

/-- What it comes to may matter for the property. -/
theorem Meets.imp_ok (hx : Meets P E x) (h : ∀ a, x = .ok a → P a → P' a) : Meets P' E x :=
  ⟨fun a ha => h a ha (hx.1 a ha), hx.2⟩

theorem meets_mapError (h : ∀ e, x = .error e → E' (g e)) :
    Meets (fun a => x = .ok a) E' (x.mapError g) := by
  refine ⟨fun a ha => mapError_eq_ok_iff.mp ha, fun e he => ?_⟩
  obtain ⟨cause, hcause, rfl⟩ := mapError_eq_error_iff.mp he
  exact h cause hcause

end Meets

/-! ### Lists of computations -/

/-- Each result of a list of computations is the result of one of them. -/
theorem exists_of_mem_mapM {as : List α} {bs : List β} (h : as.mapM f = .ok bs) (hb : b ∈ bs) :
    ∃ a ∈ as, f a = .ok b := by
  induction as generalizing bs with
  | nil =>
      cases h
      cases hb
  | cons a as ih =>
      simp only [List.mapM_cons, bind_eq_ok_iff, pure_eq_ok_iff] at h
      obtain ⟨b', hb', bs', hbs', rfl⟩ := h
      rcases List.mem_cons.mp hb with rfl | hb
      · exact ⟨a, List.mem_cons_self, hb'⟩
      · obtain ⟨a', ha', h'⟩ := ih hbs' hb
        exact ⟨a', List.mem_cons_of_mem _ ha', h'⟩

/-- A list of computations succeeds when each of them does. -/
theorem forall₂_of_mapM {as : List α} {bs : List β} (h : as.mapM f = .ok bs) :
    List.Forall₂ (fun a b => f a = .ok b) as bs := by
  induction as generalizing bs with
  | nil =>
      cases h
      exact .nil
  | cons a as ih =>
      simp only [List.mapM_cons, bind_eq_ok_iff, pure_eq_ok_iff] at h
      obtain ⟨b, hb, bs, hbs, rfl⟩ := h
      exact .cons hb (ih hbs)

theorem mapM_of_forall₂ {as : List α} {bs : List β}
    (h : List.Forall₂ (fun a b => f a = .ok b) as bs) : as.mapM f = .ok bs := by
  induction h with
  | nil => rfl
  | cons ha _ ih =>
      rw [List.mapM_cons, ha, ih]
      rfl

/-- A list of computations fails with the error of one of them. -/
theorem exists_of_mapM_eq_error {as : List α} (h : as.mapM f = .error e) :
    ∃ a ∈ as, f a = .error e := by
  induction as with
  | nil => cases h
  | cons a as ih =>
      simp only [List.mapM_cons, bind_eq_error_iff] at h
      rcases h with h | ⟨b, _, h | ⟨bs, _, h⟩⟩
      · exact ⟨a, List.mem_cons_self, h⟩
      · obtain ⟨a', ha', h'⟩ := ih h
        exact ⟨a', List.mem_cons_of_mem _ ha', h'⟩
      · cases h

theorem meets_mapM {P : β → Prop} {E : ε → Prop} {as : List α} (h : ∀ a ∈ as, Meets P E (f a)) :
    Meets (fun bs => ∀ b ∈ bs, P b) E (as.mapM f) := by
  refine ⟨fun bs hbs b hb => ?_, fun e he => ?_⟩
  · obtain ⟨a, ha, hfa⟩ := exists_of_mem_mapM hbs hb
    exact (h a ha).1 b hfa
  · obtain ⟨a, ha, hfa⟩ := exists_of_mapM_eq_error he
    exact (h a ha).2 e hfa

end EtlFlow.Outcome
