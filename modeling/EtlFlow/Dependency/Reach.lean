/-!
# Reachability

What is reached from somewhere along the steps `next`, and the order in which a depth-first walk comes back from
its visits.  Both stay among the elements of `free`, and visit each one once.
-/

namespace EtlFlow.Dependency

variable {α : Type} [DecidableEq α]

/-! ### What is reached -/

/-- What is reached from `pending` among `free`, with what was `found` before. -/
def closure (next : α → List α) (free found : List α) : (pending : List α) → List α
  | [] => found
  | a :: as =>
    if a ∈ free then closure next (free.erase a) (a :: found) (next a ++ as)
    else closure next free found as
termination_by pending => (free.length, pending.length)
decreasing_by
  · have := List.length_erase_of_mem ‹a ∈ free›
    have := List.length_pos_of_mem ‹a ∈ free›
    exact Prod.Lex.left _ _ (by omega)
  · exact Prod.Lex.right _ (by simp)

/-- The elements of `elements` that are reached from `start` in one step or more. -/
def reached (next : α → List α) (elements : List α) (start : α) : List α :=
  let found := closure next elements [] (next start)
  elements.filter found.contains

/-! ### Depth-first order -/

/-- A visit: going to an element, or coming back from it. -/
inductive Visit (α : Type) where
  | enter (a : α)
  | leave (a : α)
  deriving DecidableEq, Repr

/-- The elements in the order of the walk's coming back from them, the last one first, in front of
`order`. -/
def walk (next : α → List α) (free order : List α) : (visits : List (Visit α)) → List α
  | [] => order
  | .leave a :: visits => walk next free (a :: order) visits
  | .enter a :: visits =>
    if a ∈ free then
      walk next (free.erase a) order ((next a).map .enter ++ .leave a :: visits)
    else walk next free order visits
termination_by visits => (free.length, visits.length)
decreasing_by
  · exact Prod.Lex.right _ (by simp)
  · have := List.length_erase_of_mem ‹a ∈ free›
    have := List.length_pos_of_mem ‹a ∈ free›
    exact Prod.Lex.left _ _ (by omega)
  · exact Prod.Lex.right _ (by simp)

/-- The elements of `elements`, each one before all that a depth-first walk from it reached. -/
def lastLeftFirst (next : α → List α) (elements : List α) : List α :=
  walk next elements [] (elements.map .enter)

end EtlFlow.Dependency
