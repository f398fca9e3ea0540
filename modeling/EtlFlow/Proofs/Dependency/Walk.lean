import EtlFlow.Dependency.Reach
import Mathlib.Data.List.Nodup
import Mathlib.Logic.Relation
/-!
# The order of a depth-first walk

A walk over distinct elements comes back from each of them once (`lastLeftFirst_perm`).  Where no element leads
back to itself, it comes back from an element after it has come back from all that the element leads to,
so the last one left stands before those (`pairwise_lastLeftFirst`).
-/

namespace EtlFlow.Dependency

open Relation (TransGen)

variable {α : Type} {next : α → List α} {elements free order above : List α}
  {visits : List (Visit α)} {a b : α}

/-- The element that a visit goes to or comes back from. -/
def Visit.element : Visit α → α
  | enter a => a
  | leave a => a

/-- The elements that the walk has entered and not left, the innermost first. -/
def entered (visits : List (Visit α)) : List α :=
  visits.filterMap fun
    | .enter _ => none
    | .leave a => some a

@[simp]
theorem entered_nil : entered ([] : List (Visit α)) = [] := rfl

@[simp]
theorem entered_enter : entered (.enter a :: visits) = entered visits := rfl

@[simp]
theorem entered_leave : entered (.leave a :: visits) = a :: entered visits := rfl

theorem entered_map_enter (as : List α) : entered (as.map .enter ++ visits) = entered visits := by
  induction as with
  | nil => rfl
  | cons a as ih => exact ih

theorem mem_entered : a ∈ entered visits ↔ .leave a ∈ visits := by
  induction visits with
  | nil => simp
  | cons v visits ih => cases v <;> simp [ih]

/-! ### Every element once -/

/-- Each element is free, entered or left, and the free ones are still to be entered. -/
structure Walking (elements free order : List α) (visits : List (Visit α)) : Prop where
  perm : (free ++ (entered visits ++ order)).Perm elements
  waiting : ∀ a ∈ free, .enter a ∈ visits

theorem walking_start (elements : List α) : Walking elements elements [] (elements.map .enter) where
  perm := by
    have none_entered : entered (elements.map .enter ++ []) = [] := entered_map_enter elements
    rw [List.append_nil] at none_entered
    simp [none_entered]
  waiting := fun _ ha => List.mem_map_of_mem ha

namespace Walking

theorem nodup (h : Walking elements free order visits) (hn : elements.Nodup) :
    (free ++ (entered visits ++ order)).Nodup := h.perm.nodup_iff.mpr hn

theorem leave (h : Walking elements free order (.leave a :: visits)) :
    Walking elements free (a :: order) visits where
  perm := by
    refine List.Perm.trans ?_ h.perm
    exact List.Perm.append_left free List.perm_middle
  waiting := by
    intro b hb
    simpa using h.waiting b hb

theorem skip (h : Walking elements free order (.enter a :: visits)) (ha : a ∉ free) :
    Walking elements free order visits where
  perm := h.perm
  waiting := by
    intro b hb
    have hne : b ≠ a := fun e => ha (e ▸ hb)
    simpa [hne] using h.waiting b hb

theorem finish (h : Walking elements free order []) : order.Perm elements := by
  have none_free : free = [] := List.eq_nil_iff_forall_not_mem.mpr fun a ha => by
    simpa using h.waiting a ha
  simpa [none_free] using h.perm

variable [DecidableEq α]

theorem enter (h : Walking elements free order (.enter a :: visits)) (hn : elements.Nodup)
    (ha : a ∈ free) :
    Walking elements (free.erase a) order ((next a).map .enter ++ .leave a :: visits) where
  perm := by
    rw [entered_map_enter]
    refine List.Perm.trans ?_ h.perm
    have split := (List.perm_cons_erase ha).symm
    exact List.perm_middle.trans (split.append_right _)
  waiting := by
    intro b hb
    have distinct := (List.nodup_append.mp (h.nodup hn)).1
    obtain ⟨hne, hb⟩ := (distinct.mem_erase_iff).mp hb
    have later : .enter b ∈ visits := by simpa [hne] using h.waiting b hb
    exact List.mem_append_right _ (List.mem_cons_of_mem _ later)

theorem walk_perm (h : Walking elements free order visits) (hn : elements.Nodup) :
    (walk next free order visits).Perm elements := by
  fun_induction walk next free order visits with
  | case1 free order => exact h.finish
  | case2 free order a visits ih => exact ih h.leave
  | case3 free order a visits ha ih => exact ih (h.enter hn ha)
  | case4 free order a visits ha ih => exact ih (h.skip ha)

end Walking

/-- The walk comes back from every element once. -/
theorem lastLeftFirst_perm [DecidableEq α] (hn : elements.Nodup) :
    (lastLeftFirst next elements).Perm elements :=
  (walking_start elements).walk_perm hn

/-! ### Without circles -/

/-- One step leads from `x` to `y`. -/
def Leads (next : α → List α) (x y : α) : Prop := y ∈ next x

/-- What an entered element leads to is left already or is visited before it is left; `above` is visited
before all of the visits. -/
def Served (next : α → List α) (order : List α) : (above : List α) → List (Visit α) → Prop
  | _, [] => True
  | above, .enter a :: visits => Served next order (a :: above) visits
  | above, .leave a :: visits => next a ⊆ order ++ above ∧ Served next order (a :: above) visits

/-- An entered element leads to all that is visited before it is left. -/
def Chained (next : α → List α) : List (Visit α) → Prop :=
  List.Pairwise fun v w => ∀ b, w = .leave b → TransGen (Leads next) b v.element

theorem Served.mono {order' above' : List α} (h : Served next order above visits)
    (hsub : order ++ above ⊆ order' ++ above') : Served next order' above' visits := by
  have grow {order order' above above' : List α} (a : α) (hsub : order ++ above ⊆ order' ++ above') :
      order ++ a :: above ⊆ order' ++ a :: above' := by
    intro x hx
    have := @hsub x
    simp only [List.mem_append, List.mem_cons] at hx this ⊢
    tauto
  induction visits generalizing above above' with
  | nil => trivial
  | cons v visits ih =>
      cases v with
      | enter a => exact ih h (grow a hsub)
      | leave a => exact ⟨fun x hx => hsub (h.1 hx), ih h.2 (grow a hsub)⟩

theorem served_map_enter {as : List α} (h : Served next order (as.reverse ++ above) visits) :
    Served next order above (as.map .enter ++ visits) := by
  induction as generalizing above with
  | nil => exact h
  | cons a as ih =>
      refine ih (h.mono fun x hx => ?_)
      simpa using hx

/-- An element that is entered already is not needed above: what leads to it would be in a circle with
it. -/
theorem Served.drop (h : Served next order (a :: above) visits) (hv : Chained next visits)
    (ha : .leave a ∈ visits) (acyclic : ∀ x, ¬ TransGen (Leads next) x x) :
    Served next order above visits := by
  induction visits generalizing above with
  | nil => trivial
  | cons v visits ih =>
      obtain ⟨hchain, hchained⟩ := List.pairwise_cons.mp hv
      have swap {b : α} : order ++ b :: a :: above ⊆ order ++ a :: b :: above := by
        intro x hx
        simp only [List.mem_append, List.mem_cons] at hx ⊢
        tauto
      cases v with
      | enter b =>
          have ha : .leave a ∈ visits := by simpa using ha
          exact ih (Served.mono h swap) hchained ha
      | leave b =>
          obtain ⟨hb, h⟩ := h
          have reaches : b = a ∨ TransGen (Leads next) a b := by
            rcases List.mem_cons.mp ha with heq | ha
            · cases heq
              exact .inl rfl
            · exact .inr (hchain _ ha a rfl)
          have needless : next b ⊆ order ++ above := by
            intro x hx
            have := hb hx
            have hne : x ≠ a := by
              rintro rfl
              rcases reaches with rfl | hab
              · exact acyclic b (.single hx)
              · exact acyclic x (hab.tail hx)
            simpa [hne] using this
          refine ⟨needless, ?_⟩
          by_cases hba : b = a
          · subst hba
            refine h.mono fun x hx => ?_
            simp only [List.mem_append, List.mem_cons] at hx ⊢
            tauto
          · have ha : .leave a ∈ visits := by simpa [Ne.symm hba] using ha
            exact ih (h.mono swap) hchained ha

/-- A walk where no element leads back to itself. -/
structure Descending (next : α → List α) (elements free order : List α) (visits : List (Visit α)) :
    Prop extends Walking elements free order visits where
  within : ∀ v ∈ visits, v.element ∈ elements
  chained : Chained next visits
  served : Served next order [] visits
  closed : ∀ x ∈ order, next x ⊆ order
  ordered : order.Pairwise fun x y => ¬ Leads next y x

theorem descending_start (next : α → List α) (elements : List α) :
    Descending next elements elements [] (elements.map .enter) where
  toWalking := walking_start elements
  within := by simp [Visit.element]
  chained := by
    refine List.pairwise_iff_forall_sublist.mpr fun {v w} h b hw => ?_
    have hmem : w ∈ elements.map Visit.enter := h.subset (by simp)
    simp [hw] at hmem
  served := by
    have served : Served next [] [] (elements.map .enter ++ []) := served_map_enter trivial
    rwa [List.append_nil] at served
  closed := by simp
  ordered := .nil

namespace Descending

theorem leave (h : Descending next elements free order (.leave a :: visits)) (hn : elements.Nodup) :
    Descending next elements free (a :: order) visits where
  toWalking := h.toWalking.leave
  within := fun v hv => h.within v (List.mem_cons_of_mem _ hv)
  chained := (List.pairwise_cons.mp h.chained).2
  served := by
    refine h.served.2.mono fun x hx => ?_
    simp only [List.mem_append, List.mem_cons] at hx ⊢
    tauto
  closed := by
    have hnext : next a ⊆ order := by simpa using h.served.1
    intro x hx y hy
    rcases List.mem_cons.mp hx with rfl | hx
    · exact List.mem_cons_of_mem _ (hnext hy)
    · exact List.mem_cons_of_mem _ (h.closed x hx hy)
  ordered := by
    refine List.pairwise_cons.mpr ⟨fun y hy hya => ?_, h.ordered⟩
    -- what an element on the list leads to is on it, and `a` is left only now
    have distinct := (List.nodup_append.mp (h.toWalking.nodup hn)).2.1
    rw [entered_leave, List.cons_append, List.nodup_cons] at distinct
    exact distinct.1 (List.mem_append_right _ (h.closed y hy hya))

theorem skip (h : Descending next elements free order (.enter a :: visits)) (ha : a ∉ free)
    (acyclic : ∀ x, ¬ TransGen (Leads next) x x) :
    Descending next elements free order visits where
  toWalking := h.toWalking.skip ha
  within := fun v hv => h.within v (List.mem_cons_of_mem _ hv)
  chained := (List.pairwise_cons.mp h.chained).2
  served := by
    have hserved : Served next order [a] visits := h.served
    have hmem : a ∈ free ++ (entered visits ++ order) :=
      h.perm.mem_iff.mpr (h.within _ List.mem_cons_self)
    rcases List.mem_append.mp ((List.mem_append.mp hmem).resolve_left ha) with hentered | hleft
    · exact hserved.drop (List.pairwise_cons.mp h.chained).2 (mem_entered.mp hentered) acyclic
    · refine hserved.mono fun x hx => ?_
      simp only [List.mem_append, List.mem_singleton, List.not_mem_nil, or_false] at hx ⊢
      rcases hx with hx | rfl
      · exact hx
      · exact hleft
  closed := h.closed
  ordered := h.ordered

variable [DecidableEq α]

theorem enter (h : Descending next elements free order (.enter a :: visits)) (hn : elements.Nodup)
    (hin : ∀ x, next x ⊆ elements) (ha : a ∈ free) :
    Descending next elements (free.erase a) order ((next a).map .enter ++ .leave a :: visits) where
  toWalking := h.toWalking.enter hn ha
  within := by
    intro v hv
    rcases List.mem_append.mp hv with hv | hv
    · obtain ⟨b, hb, rfl⟩ := List.mem_map.mp hv
      exact hin a hb
    · rcases List.mem_cons.mp hv with rfl | hv
      · exact h.within (.enter a) List.mem_cons_self
      · exact h.within v (List.mem_cons_of_mem _ hv)
  chained := by
    obtain ⟨hbehind, hchained⟩ := List.pairwise_cons.mp h.chained
    refine List.pairwise_append.mpr ⟨?_, List.pairwise_cons.mpr ⟨hbehind, hchained⟩, ?_⟩
    · refine List.pairwise_map.mpr (List.pairwise_of_forall fun x y b hb => ?_)
      cases hb
    · intro v hv w hw b hb
      obtain ⟨x, hx, rfl⟩ := List.mem_map.mp hv
      rcases List.mem_cons.mp hw with rfl | hw
      · cases hb
        exact .single hx
      · exact (hbehind w hw b hb).tail hx
  served := by
    have hserved : Served next order [a] visits := h.served
    refine served_map_enter ⟨fun x hx => by simp [hx], hserved.mono fun x hx => ?_⟩
    simp only [List.mem_append, List.mem_cons] at hx ⊢
    tauto
  closed := h.closed
  ordered := h.ordered

theorem pairwise_walk (h : Descending next elements free order visits) (hn : elements.Nodup)
    (hin : ∀ x, next x ⊆ elements) (acyclic : ∀ x, ¬ TransGen (Leads next) x x) :
    (walk next free order visits).Pairwise fun x y => ¬ Leads next y x := by
  fun_induction walk next free order visits with
  | case1 free order => exact h.ordered
  | case2 free order a visits ih => exact ih (h.leave hn)
  | case3 free order a visits ha ih => exact ih (h.enter hn hin ha)
  | case4 free order a visits ha ih => exact ih (h.skip ha acyclic)

end Descending

/-- Without circles no element leads to one that stands before it. -/
theorem pairwise_lastLeftFirst [DecidableEq α] (hn : elements.Nodup) (hin : ∀ x, next x ⊆ elements)
    (acyclic : ∀ x, ¬ TransGen (Leads next) x x) :
    (lastLeftFirst next elements).Pairwise fun x y => ¬ Leads next y x :=
  (descending_start next elements).pairwise_walk hn hin acyclic

end EtlFlow.Dependency
