/-!
# Lists without repetition

Adding to a list only what is new keeps it free of repetition; `repeated?` finds the first repetition of a
list that has one.
-/

namespace EtlFlow.Sequence

variable {α : Type} [DecidableEq α]

/-- The list with `a` at its end, unless it is in the list. -/
def addNew (l : List α) (a : α) : List α := if a ∈ l then l else l ++ [a]

/-- The list with the new ones of `as` at its end. -/
def addAll (l as : List α) : List α := as.foldl addNew l

theorem nodup_addNew {l : List α} (h : l.Nodup) (a : α) : (addNew l a).Nodup := by
  unfold addNew
  split
  · exact h
  · have hn : a ∉ l := by assumption
    simp only [List.nodup_append, h, true_and]
    exact ⟨by simp, fun b hb c hc e => hn (by simp_all)⟩

theorem nodup_addAll {l : List α} (h : l.Nodup) (as : List α) : (addAll l as).Nodup := by
  induction as generalizing l with
  | nil => exact h
  | cons a as ih => exact ih (nodup_addNew h a)

@[simp]
theorem mem_addNew {l : List α} {a b : α} : b ∈ addNew l a ↔ b ∈ l ∨ b = a := by
  unfold addNew
  split
  · constructor
    · exact .inl
    · rintro (h | rfl)
      · exact h
      · assumption
  · simp

@[simp]
theorem mem_addAll {l as : List α} {b : α} : b ∈ addAll l as ↔ b ∈ l ∨ b ∈ as := by
  induction as generalizing l with
  | nil => simp [addAll]
  | cons a as ih =>
    have : addAll l (a :: as) = addAll (addNew l a) as := rfl
    rw [this, ih]
    simp [or_assoc]

/-- The first element that is in `seen` or comes again. -/
def repeatedAfter? (seen : List α) : List α → Option α
  | [] => none
  | a :: as => if a ∈ seen then some a else repeatedAfter? (a :: seen) as

/-- The first element that comes for the second time. -/
def repeated? (l : List α) : Option α := repeatedAfter? [] l

theorem repeatedAfter?_eq_none_iff {seen l : List α} :
    repeatedAfter? seen l = none ↔ l.Nodup ∧ ∀ a ∈ l, a ∉ seen := by
  induction l generalizing seen with
  | nil => simp [repeatedAfter?]
  | cons a as ih =>
    unfold repeatedAfter?
    split
    · simp_all
    · rw [ih]
      simp only [List.nodup_cons, List.mem_cons, not_or, forall_eq_or_imp]
      constructor
      · rintro ⟨hn, h⟩
        exact ⟨⟨fun ha => (h a ha).1 rfl, hn⟩, by assumption, fun b hb => (h b hb).2⟩
      · rintro ⟨⟨ha, hn⟩, _, h⟩
        exact ⟨hn, fun b hb => ⟨fun e => ha (e ▸ hb), h b hb⟩⟩

/-- Nothing comes twice exactly in a list without repetition. -/
theorem repeated?_eq_none_iff {l : List α} : repeated? l = none ↔ l.Nodup := by
  simp [repeated?, repeatedAfter?_eq_none_iff]

end EtlFlow.Sequence
