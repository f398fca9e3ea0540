import EtlFlow.Dependency.Dag
import EtlFlow.Dependency.Reach
import EtlFlow.Proofs.Sequence.Founded
import Mathlib.Data.Finite.Defs
import Mathlib.Data.Fintype.Order
import Mathlib.Data.Fintype.Sets
import Mathlib.Logic.Relation
import Mathlib.Order.WellFounded
/-!
# Which activity ends before which one starts

`closure` finds exactly what a path inside the free elements leads to (`mem_closure_iff`), and
`reached` what is one step or more away (`mem_reached_iff`).

A step relation leads from an element to a circle when some element that is reached leads back to
itself.  Nothing accessible does (`not_leadsToCircle_of_acc`), and in a list where every element has
a successor every element does (`leadsToCircle_of_forall_exists`).

`Precedes` is the order that waiting makes of activities.  `ancestors` computes it
(`mem_ancestors_iff`), and `ofActivities` accepts exactly the activities with distinct ids that wait
for each other only and never, through others, for themselves (`ofActivities_eq_ok_iff`).
-/

namespace EtlFlow.Dependency

open Relation (ReflTransGen TransGen)

/-! ### Circles -/

section

variable {α : Type} {r : α → α → Prop} {x y : α}

/-- A circle is reached from `x`. -/
def LeadsToCircle (r : α → α → Prop) (x : α) : Prop := ∃ c, ReflTransGen r x c ∧ TransGen r c c

/-- The way to a circle goes on, also from an element of the circle itself. -/
theorem LeadsToCircle.exists_step (h : LeadsToCircle r x) : ∃ y, r x y ∧ LeadsToCircle r y := by
  obtain ⟨c, hxc, hc⟩ := h
  rcases ReflTransGen.cases_head hxc with rfl | ⟨y, hxy, hyc⟩
  · obtain ⟨y, hxy, hyx⟩ := TransGen.head'_iff.mp hc
    exact ⟨y, hxy, x, hyx, hc⟩
  · exact ⟨y, hxy, c, hyc, hc⟩

theorem not_leadsToCircle_of_acc (h : Acc (fun b a => r a b) x) : ¬ LeadsToCircle r x := by
  induction h with
  | intro x _ ih =>
      intro hx
      obtain ⟨y, hxy, hy⟩ := hx.exists_step
      exact ih y hxy hy

/-- Of the elements of the list that are reached from `x` none has the last place: were there no
circle, the steps among them would be well-founded. -/
theorem leadsToCircle_of_forall_exists {as : List α} (h : ∀ a ∈ as, ∃ b ∈ as, r a b) (hx : x ∈ as) :
    LeadsToCircle r x := by
  by_contra hcircle
  let R := {a // a ∈ as ∧ ReflTransGen r x a}
  have finite : Finite R := by
    refine Set.Finite.subset (List.finite_toSet as) ?_
    exact fun a ha => ha.1
  let later : R → R → Prop := fun b a => TransGen r a.1 b.1
  have irrefl : Std.Irrefl later := ⟨fun a ha => hcircle ⟨a.1, a.2.2, ha⟩⟩
  have trans : IsTrans R later := ⟨fun _ _ _ hab hbc => TransGen.trans hbc hab⟩
  have founded : WellFounded later := Finite.wellFounded_of_trans_of_irrefl later
  obtain ⟨a, -, last⟩ := founded.has_min Set.univ ⟨⟨x, hx, .refl⟩, trivial⟩
  obtain ⟨b, hb, hab⟩ := h a.1 a.2.1
  exact last ⟨b, hb, a.2.2.tail hab⟩ trivial (.single hab)

end

/-! ### Walks -/

variable {α : Type} [DecidableEq α] {next : α → List α} {free found pending elements : List α}

/-- A step from `a` to `b` that stays among the elements of `free`. -/
def StepIn (next : α → List α) (free : List α) (a b : α) : Prop := b ∈ next a ∧ b ∈ free

/-! ### Everything found is reached -/

theorem StepIn.of_erase {a b c : α} (h : StepIn next (free.erase c) a b) : StepIn next free a b :=
  ⟨h.1, List.mem_of_mem_erase h.2⟩

theorem exists_path_of_mem_closure {x : α} (hx : x ∈ closure next free found pending) :
    x ∈ found ∨ ∃ a ∈ pending, a ∈ free ∧ ReflTransGen (StepIn next free) a x := by
  fun_induction closure next free found pending with
  | case1 free found => exact .inl hx
  | case2 free found a as ha ih =>
      rcases ih hx with hx | ⟨b, hb, hfree, hpath⟩
      · rcases List.mem_cons.mp hx with rfl | hx
        · exact .inr ⟨x, List.mem_cons_self, ha, .refl⟩
        · exact .inl hx
      · have hbx : ReflTransGen (StepIn next free) b x := hpath.lift id fun _ _ => StepIn.of_erase
        have hbfree : b ∈ free := List.mem_of_mem_erase hfree
        rcases List.mem_append.mp hb with hb | hb
        · exact .inr ⟨a, List.mem_cons_self, ha, .head ⟨hb, hbfree⟩ hbx⟩
        · exact .inr ⟨b, List.mem_cons_of_mem a hb, hbfree, hbx⟩
  | case3 free found a as ha ih =>
      rcases ih hx with hx | ⟨b, hb, hfree, hpath⟩
      · exact .inl hx
      · exact .inr ⟨b, List.mem_cons_of_mem a hb, hfree, hpath⟩

/-! ### Everything reached is found -/

theorem mem_closure_of_mem_found {x : α} (hx : x ∈ found) :
    x ∈ closure next free found pending := by
  fun_induction closure next free found pending with
  | case1 free found => exact hx
  | case2 free found a as ha ih => exact ih (List.mem_cons_of_mem a hx)
  | case3 free found a as ha ih => exact ih hx

theorem mem_closure_of_mem_pending {x : α} (hx : x ∈ pending) (hfree : x ∈ free) :
    x ∈ closure next free found pending := by
  fun_induction closure next free found pending with
  | case1 free found => cases hx
  | case2 free found a as ha ih =>
      by_cases hxa : x = a
      · subst hxa
        exact mem_closure_of_mem_found List.mem_cons_self
      · have hxas : x ∈ as := (List.mem_cons.mp hx).resolve_left hxa
        exact ih (List.mem_append_right _ hxas) ((List.mem_erase_of_ne hxa).mpr hfree)
  | case3 free found a as ha ih =>
      rcases List.mem_cons.mp hx with rfl | hx
      · exact absurd hfree ha
      · exact ih hx hfree

/-- What a newly found element leads to is found as well.  An element leaves `free` only by being
found, which is why the step may end in either. -/
theorem closure_closed {x y : α} (hx : x ∈ closure next free found pending) (hy : y ∈ next x)
    (hfree : y ∈ free ∨ y ∈ found) : x ∈ found ∨ y ∈ closure next free found pending := by
  fun_induction closure next free found pending with
  | case1 free found => exact .inl hx
  | case2 free found a as ha ih =>
      have hfree' : y ∈ free.erase a ∨ y ∈ a :: found := by
        by_cases hya : y = a
        · exact .inr (hya ▸ List.mem_cons_self)
        · rcases hfree with hfree | hfound
          · exact .inl ((List.mem_erase_of_ne hya).mpr hfree)
          · exact .inr (List.mem_cons_of_mem a hfound)
      rcases ih hx hfree' with hx | hy'
      · rcases List.mem_cons.mp hx with rfl | hx
        · rcases hfree' with hfree' | hfound
          · exact .inr (mem_closure_of_mem_pending (List.mem_append_left as hy) hfree')
          · exact .inr (mem_closure_of_mem_found hfound)
        · exact .inl hx
      · exact .inr hy'
  | case3 free found a as ha ih => exact ih hx hfree

/-- The walk from nothing found reaches exactly what a path inside `free` leads to. -/
theorem mem_closure_iff {x : α} :
    x ∈ closure next free [] pending ↔
      ∃ a ∈ pending, a ∈ free ∧ ReflTransGen (StepIn next free) a x := by
  constructor
  · intro hx
    exact (exists_path_of_mem_closure hx).resolve_left List.not_mem_nil
  · rintro ⟨a, ha, hfree, hpath⟩
    induction hpath with
    | refl => exact mem_closure_of_mem_pending ha hfree
    | tail _ hstep ih => exact (closure_closed ih hstep.1 (.inl hstep.2)).resolve_left List.not_mem_nil

/-- One step or more: what is reached from an element. -/
theorem mem_reached_iff {start x : α} :
    x ∈ reached next elements start ↔ TransGen (StepIn next elements) start x := by
  unfold reached
  simp only [List.mem_filter, List.contains_iff_mem, mem_closure_iff]
  constructor
  · rintro ⟨_, a, ha, hfree, hpath⟩
    exact .head' ⟨ha, hfree⟩ hpath
  · intro h
    obtain ⟨a, hstep, hpath⟩ := TransGen.head'_iff.mp h
    obtain ⟨b, _, hlast⟩ := TransGen.tail'_iff.mp h
    exact ⟨hlast.2, a, hstep.1, hstep.2, hpath⟩

/-- The list of what is reached depends on nothing but what is reached. -/
theorem reached_congr {next' : α → List α} {start : α}
    (h : ∀ x, x ∈ reached next elements start ↔ x ∈ reached next' elements start) :
    reached next elements start = reached next' elements start := by
  unfold reached at h ⊢
  apply List.filter_congr
  intro x hx
  have hiff := h x
  simp only [List.mem_filter, hx, true_and] at hiff
  exact Bool.eq_iff_iff.mpr hiff

end EtlFlow.Dependency

namespace EtlFlow.Dependency.Dag

open Relation (TransGen ReflTransGen)
open Workflow (ObjectId Activity)

variable {d : Dag} {x y : ObjectId}

/-- The activity `y` waits for the activity `x`. -/
def Waits (d : Dag) (x y : ObjectId) : Prop := x ∈ d.before y

/-- The activity `x` ends before the activity `y` starts. -/
def Precedes (d : Dag) : ObjectId → ObjectId → Prop := TransGen d.Waits

/-- Distinct ids, and an order on them. -/
structure Sound (d : Dag) : Prop where
  nodup_ids : d.ids.Nodup
  known : ∀ n ∈ d.nodes, n.dependsOn ⊆ d.ids
  acyclic : ∀ x, ¬ d.Precedes x x

/-! ### What an activity waits for -/

theorem exists_node_of_waits (h : d.Waits x y) : ∃ n ∈ d.nodes, n.id = y ∧ x ∈ n.dependsOn := by
  unfold Waits before at h
  split at h
  · next n hfind =>
      have hid : n.id = y := by simpa using List.find?_some hfind
      exact ⟨n, List.mem_of_find?_eq_some hfind, hid, h⟩
  · cases h

theorem before_of_mem (hn : d.ids.Nodup) {n : Node} (hmem : n ∈ d.nodes) :
    d.before n.id = n.dependsOn := by
  unfold before
  cases hfind : d.nodes.find? (·.id == n.id) with
  | none =>
      rw [List.find?_eq_none] at hfind
      exact absurd (beq_self_eq_true n.id) (hfind n hmem)
  | some m =>
      have hid : m.id = n.id := by simpa using List.find?_some hfind
      rw [Sequence.eq_of_name_eq hn (List.mem_of_find?_eq_some hfind) hmem hid]

theorem waits_iff (hn : d.ids.Nodup) :
    d.Waits x y ↔ Sequence.NeededBy Node.id Node.dependsOn d.nodes x y := by
  constructor
  · exact exists_node_of_waits
  · rintro ⟨n, hmem, rfl, hx⟩
    unfold Waits
    rw [before_of_mem hn hmem]
    exact hx

theorem mem_ids_of_waits (hk : ∀ n ∈ d.nodes, n.dependsOn ⊆ d.ids) (h : d.Waits x y) :
    x ∈ d.ids := by
  obtain ⟨n, hmem, _, hx⟩ := exists_node_of_waits h
  exact hk n hmem hx

theorem mem_ids_of_precedes (hk : ∀ n ∈ d.nodes, n.dependsOn ⊆ d.ids) (h : d.Precedes x y) :
    x ∈ d.ids := by
  obtain ⟨z, hxz, _⟩ := TransGen.head'_iff.mp h
  exact mem_ids_of_waits hk hxz

/-! ### Ancestors -/

/-- The walk goes from an activity to those that it waits for, against the order. -/
theorem stepIn_before_iff (hk : ∀ n ∈ d.nodes, n.dependsOn ⊆ d.ids) :
    StepIn d.before d.ids = Function.swap d.Waits := by
  funext x y
  apply propext
  constructor
  · intro h
    exact h.1
  · intro h
    exact ⟨h, mem_ids_of_waits hk h⟩

/-- The ancestors of an activity are those that end before it starts. -/
theorem mem_ancestors_iff (hk : ∀ n ∈ d.nodes, n.dependsOn ⊆ d.ids) :
    x ∈ d.ancestors y ↔ d.Precedes x y := by
  unfold ancestors
  rw [List.mem_mergeSort, mem_reached_iff, stepIn_before_iff hk, Relation.transGen_swap]
  rfl

/-! ### Building a graph -/

theorem unknown?_eq_none_iff : d.unknown? = none ↔ ∀ n ∈ d.nodes, n.dependsOn ⊆ d.ids := by
  unfold unknown?
  simp only [List.findSome?_eq_none_iff, Option.map_eq_none_iff, List.find?_eq_none,
    List.contains_iff_mem, Bool.not_eq_true', Bool.not_eq_false, List.subset_def]

theorem cycle?_eq_none_iff (hk : ∀ n ∈ d.nodes, n.dependsOn ⊆ d.ids) :
    d.cycle? = none ↔ ∀ x, ¬ d.Precedes x x := by
  unfold cycle?
  constructor
  · intro h x hx
    split at h
    · cases h
    · next hany =>
        apply hany
        rw [List.any_eq_true]
        refine ⟨x, mem_ids_of_precedes hk hx, ?_⟩
        rw [List.contains_iff_mem, mem_ancestors_iff hk]
        exact hx
  · intro h
    split
    · next hany =>
        obtain ⟨x, _, hx⟩ := List.any_eq_true.mp hany
        rw [List.contains_iff_mem, mem_ancestors_iff hk] at hx
        exact absurd hx (h x)
    · rfl

/-- Activities have an order exactly when their graph is sound. -/
theorem ofActivities_eq_ok_iff {as : List Activity} :
    ofActivities as = .ok d ↔ d = ⟨as.map Node.ofActivity⟩ ∧ d.Sound := by
  unfold ofActivities
  constructor
  · intro h
    simp only at h
    split at h
    · cases h
    · next hrepeated =>
        split at h
        · cases h
        · next hunknown =>
            split at h
            · cases h
            · next hcycle =>
                cases h
                have hk := unknown?_eq_none_iff.mp hunknown
                exact ⟨rfl, Sequence.repeated?_eq_none_iff.mp hrepeated, hk,
                  (cycle?_eq_none_iff hk).mp hcycle⟩
  · rintro ⟨rfl, hs⟩
    simp only [Sequence.repeated?_eq_none_iff.mpr hs.nodup_ids, unknown?_eq_none_iff.mpr hs.known,
      (cycle?_eq_none_iff hs.known).mpr hs.acyclic]

/-! ### Graphs of activities -/

variable {as : List Activity}

theorem ids_map_ofActivity : (⟨as.map Node.ofActivity⟩ : Dag).ids = as.map Activity.id := by
  unfold ids
  rw [List.map_map]
  rfl

/-- In the graph of activities, an activity waits for the ones that it names. -/
theorem before_ofActivity (hn : (as.map Activity.id).Nodup) {a : Activity} (ha : a ∈ as) :
    (⟨as.map Node.ofActivity⟩ : Dag).before a.id = a.dependsOn := by
  rw [← ids_map_ofActivity] at hn
  exact before_of_mem hn (List.mem_map_of_mem ha)

theorem waits_map_ofActivity (hn : (as.map Activity.id).Nodup) :
    (⟨as.map Node.ofActivity⟩ : Dag).Waits = Sequence.NeededBy Activity.id Activity.dependsOn as := by
  rw [← ids_map_ofActivity] at hn
  funext x y
  apply propext
  rw [waits_iff hn]
  constructor
  · rintro ⟨n, hmem, hid, hx⟩
    obtain ⟨a, ha, rfl⟩ := List.mem_map.mp hmem
    exact ⟨a, ha, hid, hx⟩
  · rintro ⟨a, ha, hid, hx⟩
    exact ⟨Node.ofActivity a, List.mem_map_of_mem ha, hid, hx⟩

/-- Activities in an order in which each one waits for earlier ones only have a sound graph. -/
theorem sound_of_founded (hn : (as.map Activity.id).Nodup)
    (h : Sequence.Founded Activity.id Activity.dependsOn [] as) :
    (⟨as.map Node.ofActivity⟩ : Dag).Sound where
  nodup_ids := by
    rw [ids_map_ofActivity]
    exact hn
  known := by
    intro n hmem x hx
    obtain ⟨a, ha, rfl⟩ := List.mem_map.mp hmem
    obtain ⟨j, hj, rfl⟩ := List.mem_iff_getElem.mp ha
    obtain ⟨i, b, _, hb, rfl⟩ := h.exists_lt (List.getElem?_eq_getElem hj) hx
    rw [ids_map_ofActivity]
    exact List.mem_map_of_mem (List.mem_of_getElem? hb)
  acyclic := by
    intro x hx
    unfold Precedes at hx
    rw [waits_map_ofActivity hn] at hx
    exact h.acyclic hn x hx

end EtlFlow.Dependency.Dag
