import EtlFlow.Proofs.Sql.Quiet
import Mathlib.Algebra.Ring.Parity
/-!
# Statements, split and joined again

The statements of a text are separate: none is empty or has blanks around it, a semicolon in one stands
behind an odd number of its quotes, and only the last may leave a literal open (`Separate`).  Texts that
are separate are the statements of what they are joined to with semicolons and blanks between them, so
splitting and joining are inverse to each other.
-/

namespace EtlFlow.Sql

open Text (isBlank trimStart trim trim_append_blanks trim_ends trim_eq_self trim_trim)

variable {g r s x : List Char} {fs xs : List (List Char)} {c : Char} {quoted : Bool}

/-- What statements look like once they are split. -/
structure Separate (xs : List (List Char)) : Prop where
  filled : ∀ x ∈ xs, x ≠ []
  started : ∀ x ∈ xs, ∀ c ∈ x.head?, isBlank c = false
  ended : ∀ x ∈ xs, ∀ c ∈ x.getLast?, isBlank c = false
  quoted : ∀ x ∈ xs, ∀ a b, x = a ++ ';' :: b → Odd (a.count '\'')
  closed : ∀ x ∈ xs.dropLast, Even (x.count '\'')

/-! ### Semicolons and quotes -/

/-- A front before a semicolon is empty or starts as the text does. -/
theorem forall_front_cons {P : List Char → Prop} :
    (∀ a b, c :: s = a ++ ';' :: b → P a) ↔
      (c = ';' → P []) ∧ ∀ a b, s = a ++ ';' :: b → P (c :: a) := by
  constructor
  · intro h
    refine ⟨?_, ?_⟩
    · rintro rfl
      exact h [] s rfl
    · rintro a b rfl
      exact h (c :: a) b rfl
  · rintro ⟨hnil, hcons⟩ a b h
    cases a with
    | nil =>
      rw [List.nil_append, List.cons.injEq] at h
      exact hnil h.1
    | cons d a =>
      rw [List.cons_append, List.cons.injEq] at h
      obtain ⟨rfl, h⟩ := h
      exact hcons a b h

theorem fragments_cons_eq_singleton_iff :
    fragments quoted (c :: s) = [c :: s] ↔
      (c = ';' → quoted = true) ∧ fragments (if c = '\'' then !quoted else quoted) s = [s] := by
  rw [fragments]
  split
  · next h => simp [h.1, h.2]
  · next h =>
    have inside : c = ';' → quoted = true := by
      intro hc
      cases quoted with
      | false => exact absurd ⟨hc, rfl⟩ h
      | true => rfl
    rw [and_iff_right inside]
    obtain ⟨f, fs, hf⟩ :=
      List.exists_cons_of_ne_nil (fragments_ne_nil (if c = '\'' then !quoted else quoted) s)
    rw [hf]
    simp

theorem odd_count_cons (quoted : Bool) (c : Char) (a : List Char) :
    Odd (quoted.toNat + (c :: a).count '\'') ↔
      Odd ((if c = '\'' then !quoted else quoted).toNat + a.count '\'') := by
  rw [Nat.odd_iff, Nat.odd_iff]
  by_cases hc : c = '\''
  · subst hc
    rw [List.count_cons_self, if_pos rfl]
    cases quoted
    all_goals
      simp only [Bool.toNat_false, Bool.toNat_true, Bool.not_false, Bool.not_true]
      omega
  · rw [List.count_cons_of_ne hc, if_neg hc]

/-- A text is one fragment when each semicolon in it is quoted, by what came before or in the text. -/
theorem fragments_eq_singleton_iff :
    fragments quoted s = [s] ↔
      ∀ a b, s = a ++ ';' :: b → Odd (quoted.toNat + a.count '\'') := by
  induction s generalizing quoted with
  | nil => simp [fragments]
  | cons c s ih =>
    have front : Odd (quoted.toNat + ([] : List Char).count '\'') ↔ quoted = true := by
      cases quoted <;> decide
    rw [fragments_cons_eq_singleton_iff, ih, forall_front_cons, front]
    simp only [odd_count_cons]

theorem undivided_iff_odd : Undivided s ↔ ∀ a b, s = a ++ ';' :: b → Odd (a.count '\'') := by
  unfold Undivided
  rw [fragments_eq_singleton_iff]
  simp only [Bool.toNat_false, Nat.zero_add]

/-! ### Separate texts -/

/-- What is said of all elements with another one behind is said of all but the last. -/
theorem pairwise_left_iff {P : List Char → Prop} :
    (xs.Pairwise fun x _ => P x) ↔ ∀ x ∈ xs.dropLast, P x := by
  induction xs with
  | nil => simp
  | cons x xs ih =>
    cases xs with
    | nil => simp
    | cons y ys =>
      have behind : (∀ z ∈ y :: ys, P x) ↔ P x := by
        constructor
        · intro h
          exact h y List.mem_cons_self
        · intro h _ _
          exact h
      rw [List.pairwise_cons, ih, behind, List.dropLast_cons_cons, List.forall_mem_cons (a := x)]

theorem separate_iff : Separate xs ↔ IsSplit xs ∧ ∀ x ∈ xs, x ≠ [] ∧ trim x = x := by
  constructor
  · intro h
    refine ⟨⟨pairwise_left_iff.mpr h.closed, ?_⟩, ?_⟩
    · intro x hx
      exact undivided_iff_odd.mpr (h.quoted x hx)
    · intro x hx
      exact ⟨h.filled x hx, trim_eq_self (h.started x hx) (h.ended x hx)⟩
  · rintro ⟨split, h⟩
    constructor
    · intro x hx
      exact (h x hx).1
    · intro x hx
      exact (trim_ends (h x hx).2).1
    · intro x hx
      exact (trim_ends (h x hx).2).2
    · intro x hx
      exact undivided_iff_odd.mp (split.undivided x hx)
    · exact pairwise_left_iff.mp split.closed

/-! ### Splitting -/

theorem closed_trim : Closed (trim s) ↔ Closed s := by
  rw [closed_iff_core, core_trim, ← closed_iff_core]

/-- Fragments stay apart when they are trimmed and the empty ones go. -/
theorem IsSplit.statements (h : IsSplit fs) : IsSplit ((fs.map trim).filter (· ≠ [])) := by
  constructor
  · refine List.Pairwise.filter _ (List.pairwise_map.mpr (h.closed.imp ?_))
    intro f _ hf
    exact closed_trim.mpr hf
  · intro x hx
    obtain ⟨f, hf, rfl⟩ := List.mem_map.mp (List.mem_filter.mp hx).1
    exact undivided_trim.mpr (h.undivided f hf)

theorem separate_splitStatements (s : List Char) : Separate (splitStatements s) := by
  unfold splitStatements
  refine separate_iff.mpr ⟨(isSplit_fragments s).statements, ?_⟩
  intro x hx
  obtain ⟨hx, hne⟩ := List.mem_filter.mp hx
  obtain ⟨f, -, rfl⟩ := List.mem_map.mp hx
  exact ⟨of_decide_eq_true hne, trim_trim f⟩

/-! ### Joining -/

/-- A gap in front makes no statement. -/
theorem splitStatements_gap_append (hg : ∀ c ∈ g, c = ';' ∨ isBlank c = true) (s : List Char) :
    splitStatements (g ++ s) = splitStatements s := by
  induction g with
  | nil => rfl
  | cons c g ih =>
    obtain ⟨hc, hg⟩ := List.forall_mem_cons.mp hg
    rw [List.cons_append, splitStatements_cons hc.symm, ih hg]

/-- A text that is one fragment is its own only statement. -/
theorem splitStatements_undivided (hx : Undivided x) (ht : trim x = x) (hne : x ≠ []) :
    splitStatements x = [x] := by
  unfold Undivided at hx
  unfold splitStatements
  rw [hx, List.map_singleton, ht]
  simp [hne]

/-- A closed statement is the first one of a text that goes on with a gap that holds a semicolon. -/
theorem splitStatements_append_gap (hx : Undivided x) (hc : Closed x) (ht : trim x = x) (hne : x ≠ [])
    (hg : ∀ c ∈ g, c = ';' ∨ isBlank c = true) (hmem : ';' ∈ g) (s : List Char) :
    splitStatements (x ++ (g ++ s)) = x :: splitStatements s := by
  obtain ⟨b, g, rfl, hb⟩ := List.eq_append_cons_of_mem hmem
  obtain ⟨hblank, hg⟩ := List.forall_mem_append.mp hg
  replace hblank : ∀ c ∈ b, isBlank c := by
    intro c hc
    refine (hblank c hc).resolve_left ?_
    rintro rfl
    exact hb hc
  have plain := isPlainCode_blanks hblank
  have undivided : Undivided (x ++ b) := (undivided_append_right plain).mpr hx
  have closed : Closed (x ++ b) := by
    rw [← closed_trim, trim_append_blanks hblank, closed_trim]
    exact hc
  have text : x ++ (b ++ ';' :: g ++ s) = (x ++ b) ++ ';' :: (g ++ s) := by simp
  rw [text, ← splitStatements_gap_append (List.forall_mem_cons.mp hg).2 s]
  unfold splitStatements
  rw [fragments_append_semicolon undivided closed, List.map_cons, trim_append_blanks hblank, ht]
  simp [hne]

theorem splitStatements_intercalate (h : Separate xs) (hg : ∀ c ∈ g, c = ';' ∨ isBlank c = true)
    (hmem : ';' ∈ g) : splitStatements (g.intercalate xs) = xs := by
  obtain ⟨split, whole⟩ := separate_iff.mp h
  clear h
  induction xs with
  | nil => rfl
  | cons x xs ih =>
    obtain ⟨⟨closed, undivided⟩, split⟩ := isSplit_cons.mp split
    obtain ⟨⟨hne, ht⟩, whole⟩ := List.forall_mem_cons.mp whole
    cases xs with
    | nil =>
      rw [List.intercalate_singleton]
      exact splitStatements_undivided undivided ht hne
    | cons y ys =>
      have hc : Closed x := closed (List.cons_ne_nil y ys)
      rw [List.intercalate_cons_cons, List.append_assoc,
        splitStatements_append_gap undivided hc ht hne hg hmem, ih split whole]

/-- The statements of a text are separate, and separate texts are the statements of the text that they
are joined to by semicolons and blanks with one semicolon at least. -/
theorem statementTexts_separate_and_joined :
    (∀ s : String, Separate ((statementTexts s).map String.toList)) ∧
    ∀ xs : List String, Separate (xs.map String.toList) →
      ∀ sep : String, (∀ c ∈ sep.toList, c = ';' ∨ isBlank c = true) → ';' ∈ sep.toList →
        statementTexts (sep.intercalate xs) = xs := by
  constructor
  · intro s
    unfold statementTexts
    have same : String.toList ∘ String.ofList = id := funext fun _ => String.toList_ofList
    rw [List.map_map, same, List.map_id]
    exact separate_splitStatements s.toList
  · intro xs h sep hsep hmem
    unfold statementTexts
    have same : String.ofList ∘ String.toList = id := funext fun _ => String.ofList_toList
    rw [String.toList_intercalate, splitStatements_intercalate h hsep hmem, List.map_map, same,
      List.map_id]

/-- A semicolon in a literal does not split, nor does one behind a quote that nothing closes. -/
theorem statementTexts_joined_of_quotes :
    statementTexts (" ;\n; ".intercalate ["SELECT 'a;b'", "SELECT 1", "SELECT 'c; d"]) =
      ["SELECT 'a;b'", "SELECT 1", "SELECT 'c; d"] := by
  refine statementTexts_separate_and_joined.2 _ ?_ " ;\n; " (by decide) (by decide)
  refine separate_iff.mpr ⟨⟨?_, ?_⟩, ?_⟩
  · decide
  · decide
  · decide

end EtlFlow.Sql
