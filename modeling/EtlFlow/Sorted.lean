/-!
# Entries sorted by name

A name has at most one entry, and the entries stand in the order of their names.
-/

namespace EtlFlow.Sorted

variable {α : Type}

/-- The entries with a value for a name, in place of an old one. -/
def put (name : String) (value : α) : List (String × α) → List (String × α)
  | [] => [(name, value)]
  | (n, v) :: es =>
    if name < n then (name, value) :: (n, v) :: es
    else if name = n then (name, value) :: es
    else (n, v) :: put name value es

/-- The sorted entries of a list; of several for one name the last counts. -/
def ofEntries (es : List (String × α)) : List (String × α) :=
  es.foldl (fun sorted (n, v) => put n v sorted) []

/-- What is stored under a name can be read there. -/
@[simp]
theorem lookup_put_self (name : String) (value : α) (es : List (String × α)) :
    (put name value es).lookup name = some value := by
  induction es with
  | nil => simp [put]
  | cons e es ih =>
    obtain ⟨n, v⟩ := e
    unfold put
    split
    · simp
    · split
      · simp
      · rename_i h
        have : (name == n) = false := by simpa using h
        simp [List.lookup_cons, this, ih]

/-- Other names keep their entries. -/
theorem lookup_put_of_ne {name other : String} (h : other ≠ name) (value : α)
    (es : List (String × α)) : (put name value es).lookup other = es.lookup other := by
  have hn : (other == name) = false := by simpa using h
  induction es with
  | nil => simp [put, List.lookup_cons, hn]
  | cons e es ih =>
    obtain ⟨n, v⟩ := e
    unfold put
    split
    · simp [List.lookup_cons, hn]
    · split
      · rename_i e
        subst e
        simp [List.lookup_cons, hn]
      · simp only [List.lookup_cons]
        split <;> simp_all

/-- Nothing is stored but what was put there. -/
theorem mem_put {name : String} {value : α} {es : List (String × α)} {e : String × α}
    (h : e ∈ put name value es) : e = (name, value) ∨ e ∈ es := by
  induction es with
  | nil => simpa [put] using h
  | cons e' es ih =>
    obtain ⟨n, v⟩ := e'
    unfold put at h
    split at h
    · simpa using h
    · split at h
      · rcases List.mem_cons.mp h with h | h
        · exact .inl h
        · exact .inr (List.mem_cons_of_mem _ h)
      · rcases List.mem_cons.mp h with rfl | h
        · exact .inr List.mem_cons_self
        · rcases ih h with h | h
          · exact .inl h
          · exact .inr (List.mem_cons_of_mem _ h)

theorem mem_foldl_put {sorted es : List (String × α)} {e : String × α}
    (h : e ∈ es.foldl (fun sorted (n, v) => put n v sorted) sorted) : e ∈ sorted ∨ e ∈ es := by
  induction es generalizing sorted with
  | nil => exact .inl h
  | cons e' es ih =>
    rcases ih h with h | h
    · rcases mem_put h with rfl | h
      · exact .inr List.mem_cons_self
      · exact .inl h
    · exact .inr (List.mem_cons_of_mem _ h)

theorem mem_ofEntries {es : List (String × α)} {e : String × α} (h : e ∈ ofEntries es) : e ∈ es :=
  (mem_foldl_put h).resolve_left List.not_mem_nil

end EtlFlow.Sorted
