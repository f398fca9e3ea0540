import EtlFlow.Proofs.Dependency.Ancestry
import EtlFlow.Proofs.Sequence.Founded
import EtlFlow.Warehouse.Database
import Mathlib.Data.List.Perm.Basic
/-!
# Relations taken out in passes

What a database has taken out after some passes is founded: each relation stands behind those that it
needs (`Sorting`).  The passes end within as many passes as there are relations (`rests_passes`),
either with nothing left or where each relation that is left needs another one that is left
(`Sorting.mem_left_iff`).
-/

open Relation (TransGen)

namespace EtlFlow.Warehouse.Database

open Dependency (LeadsToCircle)
open Sequence (Founded)

variable {db : Database} {out left rs : List Relation} {r : Relation} {x y : String}

/-! ### What a relation needs -/

/-- The relation of the name `x` depends on that of the name `y`, another one of the database. -/
def Needs (db : Database) (x y : String) : Prop :=
  ∃ r ∈ db.relations, r.fullName = x ∧ y ∈ r.dependencies ∧ y ∈ db.names ∧ y ≠ x

/-- Some relation depends on itself through others. -/
def Circular (db : Database) : Prop := ∃ x, TransGen db.Needs x x

theorem Needs.mem_names (h : db.Needs x y) : x ∈ db.names ∧ y ∈ db.names := by
  obtain ⟨r, hr, rfl, -, hy, -⟩ := h
  exact ⟨List.mem_map_of_mem hr, hy⟩

theorem find?_fullName (h : r ∈ db.relations) : db.find? r.fullName = some r := by
  cases hfind : db.find? r.fullName with
  | none =>
      have := List.find?_eq_none.mp hfind r h
      simp at this
  | some q =>
      have hq : q ∈ db.relations := List.mem_of_find?_eq_some hfind
      have hname : q.fullName = r.fullName := by simpa using List.find?_some hfind
      rw [Sequence.eq_of_name_eq db.nodup_names hq h hname]

theorem mem_reads_iff : y ∈ db.reads x ↔ db.Needs x y := by
  constructor
  · intro h
    unfold reads at h
    split at h
    · cases h
    · rename_i r hfind
      have hname : r.fullName = x := by simpa using List.find?_some hfind
      simp only [List.mem_filter, Bool.and_eq_true, bne_iff_ne, List.contains_iff_mem] at h
      exact ⟨r, List.mem_of_find?_eq_some hfind, hname, h.1, h.2.2, h.2.1⟩
  · rintro ⟨r, hr, rfl, hdep, hy, hne⟩
    unfold reads
    rw [find?_fullName hr]
    simp only [List.mem_filter, Bool.and_eq_true, bne_iff_ne, List.contains_iff_mem]
    exact ⟨hdep, hne, hy⟩

/-! ### One pass -/

/-- Each relation of the list stands behind those that it needs. -/
def InOrder (db : Database) (rs : List Relation) : Prop :=
  Founded Relation.fullName (fun r => db.reads r.fullName) [] rs

theorem ready_iff : (db.reads r.fullName).all (out.map Relation.fullName).contains = true ↔
    db.reads r.fullName ⊆ out.map Relation.fullName := by
  simp only [List.all_eq_true, List.contains_iff_mem]
  rfl

theorem inOrder_concat : db.InOrder (out ++ [r]) ↔
    db.InOrder out ∧ db.reads r.fullName ⊆ out.map Relation.fullName := by
  unfold InOrder
  rw [Sequence.founded_append]
  simp

theorem pass_perm (out rs : List Relation) :
    ((pass db out rs).1 ++ (pass db out rs).2).Perm (out ++ rs) := by
  induction rs generalizing out with
  | nil => exact .refl _
  | cons r rs ih =>
      unfold pass
      split
      · have := ih (out ++ [r])
        rwa [List.append_assoc] at this
      · exact List.perm_middle.trans (((ih out).cons r).trans List.perm_middle.symm)

theorem pass_sublist (out rs : List Relation) : (pass db out rs).2.Sublist rs := by
  induction rs generalizing out with
  | nil => exact .refl _
  | cons r rs ih =>
      unfold pass
      split
      · exact (ih _).cons r
      · exact (ih out).cons_cons r

theorem InOrder.pass (h : db.InOrder out) (rs : List Relation) :
    db.InOrder (pass db out rs).1 := by
  induction rs generalizing out with
  | nil => exact h
  | cons r rs ih =>
      unfold Database.pass
      split
      · rename_i hr
        exact ih (inOrder_concat.mpr ⟨h, ready_iff.mp hr⟩)
      · exact ih h

/-- A pass that takes nothing out leaves only relations that are not ready. -/
theorem pass_eq_of_length (h : (pass db out rs).2.length = rs.length) :
    pass db out rs = (out, rs) ∧
      ∀ r ∈ rs, ¬ db.reads r.fullName ⊆ out.map Relation.fullName := by
  induction rs with
  | nil => exact ⟨rfl, nofun⟩
  | cons r rs ih =>
      unfold pass at h ⊢
      split at h
      · have := pass_length_le db (out ++ [r]) rs
        rw [List.length_cons] at h
        omega
      · rename_i hr
        obtain ⟨same, rest⟩ := ih (Nat.succ.inj h)
        rw [if_neg hr, same]
        refine ⟨rfl, List.forall_mem_cons.mpr ⟨?_, rest⟩⟩
        rwa [ready_iff] at hr

/-- A pass takes out all relations of a list in order, as they stand. -/
theorem pass_of_inOrder (h : db.InOrder (out ++ rs)) : pass db out rs = (out ++ rs, []) := by
  induction rs generalizing out with
  | nil => simp [pass]
  | cons r rs ih =>
      rw [List.append_cons] at h ⊢
      have front : db.InOrder (out ++ [r]) := (Sequence.founded_append.mp h).1
      unfold pass
      rw [if_pos (ready_iff.mpr (inOrder_concat.mp front).2)]
      exact ih h

/-! ### All passes -/

/-- What holds between two passes of what is out and what is left. -/
structure Sorting (db : Database) (out left : List Relation) : Prop where
  perm : (out ++ left).Perm db.relations
  sublist : left.Sublist db.relations
  inOrder : db.InOrder out

theorem sorting_relations : db.Sorting [] db.relations := ⟨.refl _, .refl _, trivial⟩

theorem Sorting.pass (h : db.Sorting out left) :
    db.Sorting (pass db out left).1 (pass db out left).2 where
  perm := (pass_perm out left).trans h.perm
  sublist := (pass_sublist out left).trans h.sublist
  inOrder := h.inOrder.pass left

theorem InOrder.acc (h : db.InOrder rs) : ∀ r ∈ rs, Acc (fun y x => db.Needs x y) r.fullName := by
  induction rs using List.reverseRecOn with
  | nil => nofun
  | append_singleton rs r ih =>
      rw [inOrder_concat] at h
      rw [List.forall_mem_append, List.forall_mem_singleton]
      refine ⟨ih h.1, .intro _ fun y hy => ?_⟩
      obtain ⟨q, hq, rfl⟩ := List.mem_map.mp (h.2 (mem_reads_iff.mpr hy))
      exact ih h.1 q hq

/-- All relations in order depend on each other in no circle. -/
theorem InOrder.not_circular (h : db.InOrder rs) (hperm : rs.Perm db.relations) : ¬ db.Circular := by
  rintro ⟨x, hx⟩
  obtain ⟨y, hxy, -⟩ := TransGen.head'_iff.mp hx
  obtain ⟨r, hr, rfl⟩ := List.mem_map.mp hxy.mem_names.1
  have hacc := h.acc r (hperm.mem_iff.mpr hr)
  exact Dependency.not_leadsToCircle_of_acc hacc ⟨_, .refl, hx⟩

/-- What the passes leave in the end are the relations that lead to a circle. -/
theorem Sorting.mem_left_iff (h : db.Sorting out left)
    (stuck : ∀ r ∈ left, ¬ db.reads r.fullName ⊆ out.map Relation.fullName) :
    x ∈ left.map Relation.fullName ↔ x ∈ db.names ∧ LeadsToCircle db.Needs x := by
  have names : ∀ y, y ∈ db.names ↔ y ∈ out.map Relation.fullName ∨ y ∈ left.map Relation.fullName := by
    intro y
    rw [← List.mem_append, ← List.map_append]
    exact ((h.perm.map Relation.fullName).mem_iff).symm
  constructor
  · intro hx
    refine ⟨(names x).mpr (.inr hx), Dependency.leadsToCircle_of_forall_exists ?_ hx⟩
    intro a ha
    obtain ⟨r, hr, rfl⟩ := List.mem_map.mp ha
    have hnot := stuck r hr
    simp only [List.subset_def, not_forall] at hnot
    obtain ⟨y, hy, hout⟩ := hnot
    have hneeds := mem_reads_iff.mp hy
    exact ⟨y, ((names y).mp hneeds.mem_names.2).resolve_left hout, hneeds⟩
  · rintro ⟨hx, hcircle⟩
    refine ((names x).mp hx).resolve_left fun hout => ?_
    obtain ⟨r, hr, rfl⟩ := List.mem_map.mp hout
    exact Dependency.not_leadsToCircle_of_acc (h.inOrder.acc r hr) hcircle

/-- Passes end where nothing is left, or where a pass takes nothing out. -/
inductive Rests (db : Database) : List Relation × List Relation → Except Error (List Relation) → Prop
  | done (out : List Relation) : Rests db (out, []) (.ok out)
  | stuck {out left : List Relation} : left ≠ [] → pass db out left = (out, left) →
      Rests db (out, left) (.error (.cycle (left.map Relation.fullName)))

/-- The passes end within as many passes as relations are left. -/
theorem rests_passes (db : Database) (out left : List Relation) :
    ∃ n ≤ left.length, Rests db ((fun s => pass db s.1 s.2)^[n] (out, left)) (passes db out left) := by
  fun_induction passes db out left with
  | case1 out => exact ⟨0, Nat.zero_le _, .done out⟩
  | case2 out left _ next hlt ih =>
      obtain ⟨n, hn, rests⟩ := ih
      exact ⟨n + 1, by omega, rests⟩
  | case3 out left hne next hlt =>
      have hlength : next.2.length = left.length :=
        Nat.le_antisymm (pass_length_le db out left) (Nat.not_lt.mp hlt)
      exact ⟨0, Nat.zero_le _, .stuck hne (pass_eq_of_length hlength).1⟩

theorem Sorting.iterate (h : db.Sorting out left) (n : ℕ) {s : List Relation × List Relation}
    (hs : (fun s => Database.pass db s.1 s.2)^[n] (out, left) = s) : db.Sorting s.1 s.2 := by
  subst hs
  induction n generalizing out left with
  | zero => exact h
  | succ n ih => exact ih h.pass

/-- What the passes end with: all relations in order, or those that lead to a circle. -/
theorem sorted_cases (db : Database) :
    (∃ rs, db.sorted = .ok rs ∧ rs.Perm db.relations ∧ db.InOrder rs) ∨
      ∃ left, left ≠ [] ∧ left.Sublist db.relations ∧
        db.sorted = .error (.cycle (left.map Relation.fullName)) ∧
        ∀ x, x ∈ left.map Relation.fullName ↔ x ∈ db.names ∧ LeadsToCircle db.Needs x := by
  obtain ⟨n, -, rests⟩ := rests_passes db [] db.relations
  generalize hs : (fun s => pass db s.1 s.2)^[n] ([], db.relations) = s at rests
  have sorting := sorting_relations.iterate n hs
  unfold sorted
  generalize passes db [] db.relations = answer at rests
  cases rests with
  | done out =>
      refine .inl ⟨out, rfl, ?_, sorting.inOrder⟩
      have := sorting.perm
      rwa [List.append_nil] at this
  | @stuck out left hne hpass =>
      refine .inr ⟨left, hne, sorting.sublist, rfl, fun x => sorting.mem_left_iff ?_⟩
      exact (pass_eq_of_length (by rw [hpass])).2

end EtlFlow.Warehouse.Database
