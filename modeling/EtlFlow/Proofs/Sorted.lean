import EtlFlow.Sorted
import Mathlib.Data.List.Sort
import Mathlib.Data.String.Basic
/-!
# Reading sorted entries

The names of sorted entries rise strictly (`pairwise_ofEntries`), so each has one value, and that is
the last one that the list gives it (`mem_ofEntries_iff`).
-/

namespace EtlFlow.Sorted

variable {α : Type} {name : String} {value : α} {es : List (String × α)}

/-! ### Order -/

/-- An entry takes the place that keeps the names in order. -/
theorem pairwise_put (h : (es.map Prod.fst).Pairwise (· < ·)) :
    ((put name value es).map Prod.fst).Pairwise (· < ·) := by
  induction es with
  | nil => exact List.pairwise_singleton _ _
  | cons e es ih =>
      obtain ⟨n, v⟩ := e
      rw [List.map_cons, List.pairwise_cons] at h
      unfold put
      split
      · next hlt =>
          rw [List.map_cons, List.map_cons, List.pairwise_cons, List.pairwise_cons]
          refine ⟨?_, h⟩
          rintro x (_ | ⟨_, hx⟩)
          · exact hlt
          · exact hlt.trans (h.1 x hx)
      · next hnot =>
          split
          · next heq =>
              subst heq
              exact List.pairwise_cons.mpr h
          · next hne =>
              rw [List.map_cons, List.pairwise_cons]
              refine ⟨fun x hx => ?_, ih h.2⟩
              obtain ⟨e', he', rfl⟩ := List.mem_map.mp hx
              rcases mem_put he' with rfl | he'
              · exact lt_of_le_of_ne (not_lt.mp hnot) (Ne.symm hne)
              · exact h.1 _ (List.mem_map_of_mem he')

theorem pairwise_foldl_put {sorted : List (String × α)}
    (h : (sorted.map Prod.fst).Pairwise (· < ·)) :
    ((es.foldl (fun sorted (n, v) => put n v sorted) sorted).map Prod.fst).Pairwise (· < ·) := by
  induction es generalizing sorted with
  | nil => exact h
  | cons e es ih => exact ih (pairwise_put h)

/-- The names of sorted entries rise. -/
theorem pairwise_ofEntries (es : List (String × α)) :
    ((ofEntries es).map Prod.fst).Pairwise (· < ·) :=
  pairwise_foldl_put List.Pairwise.nil

theorem nodup_names_ofEntries (es : List (String × α)) : ((ofEntries es).map Prod.fst).Nodup :=
  (pairwise_ofEntries es).imp fun h => h.ne

/-! ### Values -/

theorem mem_of_lookup {β : Type} [BEq β] [LawfulBEq β] {entries : List (β × α)} {key : β}
    (h : entries.lookup key = some value) : (key, value) ∈ entries := by
  obtain ⟨_, _, hsplit, _⟩ := List.lookup_eq_some_iff.mp h
  rw [hsplit]
  exact List.mem_append_right _ List.mem_cons_self

/-- In a list with distinct names the entries are what can be looked up. -/
theorem mem_iff_lookup (h : (es.map Prod.fst).Nodup) :
    (name, value) ∈ es ↔ es.lookup name = some value := by
  induction es with
  | nil => simp
  | cons e es ih =>
      obtain ⟨n, v⟩ := e
      rw [List.map_cons, List.nodup_cons] at h
      rw [List.mem_cons, List.lookup_cons]
      by_cases hn : name = n
      · subst hn
        have hnot : (name, value) ∉ es := fun hmem =>
          h.1 (List.mem_map.mpr ⟨_, hmem, rfl⟩)
        simp [hnot, eq_comm]
      · have hn' : (name == n) = false := by simpa using hn
        simp [hn, hn', ih h.2]

/-- The last value of a name counts. -/
theorem lookup_foldl_put {sorted : List (String × α)} :
    (es.foldl (fun sorted (n, v) => put n v sorted) sorted).lookup name =
      (es.reverse.lookup name).or (sorted.lookup name) := by
  induction es generalizing sorted with
  | nil => rfl
  | cons e es ih =>
      obtain ⟨n, v⟩ := e
      rw [List.foldl_cons, ih, List.reverse_cons, List.lookup_append, Option.or_assoc]
      by_cases hn : name = n
      · subst hn
        rw [lookup_put_self, List.lookup_cons_self, Option.some_or]
      · have hn' : (name == n) = false := by simpa using hn
        rw [lookup_put_of_ne hn, List.lookup_cons, hn', List.lookup_nil, Option.none_or]

theorem mem_ofEntries_iff :
    (name, value) ∈ ofEntries es ↔ es.reverse.lookup name = some value := by
  rw [mem_iff_lookup (nodup_names_ofEntries es), ofEntries, lookup_foldl_put, List.lookup_nil,
    Option.or_none]

/-- Every name keeps an entry. -/
theorem mem_names_ofEntries (h : name ∈ es.map Prod.fst) :
    name ∈ (ofEntries es).map Prod.fst := by
  obtain ⟨e, he, rfl⟩ := List.mem_map.mp h
  have found : (es.reverse.lookup e.1).isSome :=
    List.lookup_isSome_iff.mpr ⟨e, List.mem_reverse.mpr he, beq_self_eq_true _⟩
  obtain ⟨value, last⟩ := Option.isSome_iff_exists.mp found
  exact List.mem_map.mpr ⟨(e.1, value), mem_ofEntries_iff.mpr last, rfl⟩

/-! ### Related entries -/

variable {β : Type} {R : α → β → Prop} {fs : List (String × β)}

/-- Entries of the same names, with related values. -/
def Related (R : α → β → Prop) : List (String × α) → List (String × β) → Prop :=
  List.Forall₂ fun e f => e.1 = f.1 ∧ R e.2 f.2

theorem Related.exists_right (h : Related R es fs) {v : α} (hv : (name, v) ∈ es) :
    ∃ w, (name, w) ∈ fs ∧ R v w := by
  induction h with
  | nil => cases hv
  | @cons e f es fs hef _ ih =>
      rcases List.mem_cons.mp hv with rfl | hv
      · exact ⟨f.2, by rw [show name = f.1 from hef.1]; exact List.mem_cons_self, hef.2⟩
      · obtain ⟨w, hw, hvw⟩ := ih hv
        exact ⟨w, List.mem_cons_of_mem _ hw, hvw⟩

theorem Related.flip (h : Related R es fs) : Related (fun w v => R v w) fs es :=
  (List.Forall₂.flip h).imp fun _ _ hef => ⟨hef.1.symm, hef.2⟩

theorem related_put {v : α} {w : β} (hv : R v w) (h : Related R es fs) :
    Related R (put name v es) (put name w fs) := by
  induction h with
  | nil => exact .cons ⟨rfl, hv⟩ .nil
  | @cons e f es fs hef h ih =>
      obtain ⟨n, x⟩ := e
      obtain ⟨n', y⟩ := f
      obtain ⟨rfl, hxy⟩ : n = n' ∧ R x y := hef
      unfold put
      split
      · exact .cons ⟨rfl, hv⟩ (.cons ⟨rfl, hxy⟩ h)
      · split
        · exact .cons ⟨rfl, hv⟩ h
        · exact .cons ⟨rfl, hxy⟩ ih

/-- Sorting looks at names only. -/
theorem related_ofEntries (h : Related R es fs) : Related R (ofEntries es) (ofEntries fs) := by
  suffices hfold : ∀ (sorted : List (String × α)) (sorted' : List (String × β)),
      Related R sorted sorted' →
        Related R (es.foldl (fun sorted (n, v) => put n v sorted) sorted)
          (fs.foldl (fun sorted (n, v) => put n v sorted) sorted') from hfold [] [] .nil
  induction h with
  | nil => exact fun _ _ hsorted => hsorted
  | @cons e f es fs hef _ ih =>
      obtain ⟨n, x⟩ := e
      obtain ⟨n', y⟩ := f
      obtain ⟨rfl, hxy⟩ : n = n' ∧ R x y := hef
      exact fun _ _ hsorted => ih _ _ (related_put hxy hsorted)

end EtlFlow.Sorted
