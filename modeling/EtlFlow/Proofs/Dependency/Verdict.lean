import EtlFlow.Proofs.Dependency.Ancestry
import EtlFlow.Proofs.Dependency.Reduction
import EtlFlow.Proofs.Dependency.Walk
import Mathlib.Data.List.Duplicate
import Mathlib.Data.String.Basic
/-!
# What the graph of activities is refused for

A graph is built from the activities that have an order, and from no others.  Of what may be wrong with the
rest, a repeated id is reported before a missing activity and that before a circle, which is one strongly
connected component of two members or more (`isCircle_of_cycle?`).  In the order of a graph each activity
stands behind all that it waits for (`atEach_order`).
-/

namespace EtlFlow.Sequence

variable {α : Type}

theorem two_le_count_of_repeatedAfter? [DecidableEq α] {seen l : List α} {a : α}
    (h : repeatedAfter? seen l = some a) : 2 ≤ (seen ++ l).count a := by
  induction l generalizing seen with
  | nil => cases h
  | cons b l ih =>
      unfold repeatedAfter? at h
      split at h
      · next hb =>
          cases h
          have := List.count_pos_iff.mpr hb
          rw [List.count_append, List.count_cons_self]
          omega
      · have := ih h
        rwa [List.cons_append, ← List.perm_middle.count_eq] at this

/-- What is reported as repeated stands in the list twice. -/
theorem two_le_count_of_repeated? [DecidableEq α] {l : List α} {a : α} (h : repeated? l = some a) :
    2 ≤ l.count a :=
  two_le_count_of_repeatedAfter? h

/-- Of two elements that are apart, the list has two at least. -/
theorem two_le_length {l : List α} {a b : α} (ha : a ∈ l) (hb : b ∈ l) (hne : a ≠ b) :
    2 ≤ l.length := by
  have pair : [a, b].Nodup := by simpa using hne
  have sub : [a, b] ⊆ l := by simp [ha, hb]
  exact (List.subperm_of_subset pair sub).length_le

end EtlFlow.Sequence

namespace EtlFlow.Dependency.Dag

open Relation (TransGen ReflTransGen)
open Workflow (ObjectId Activity)

variable {d : Dag} {x y : ObjectId} {ids : List ObjectId}

/-! ### Descendants -/

theorem mem_after_iff (hn : d.ids.Nodup) : y ∈ d.after x ↔ d.Waits x y := by
  unfold after
  rw [waits_iff hn]
  simp only [List.mem_map, List.mem_filter, List.contains_iff_mem]
  constructor
  · rintro ⟨n, ⟨hmem, hx⟩, hid⟩
    exact ⟨n, hmem, hid, hx⟩
  · rintro ⟨n, hmem, hid, hx⟩
    exact ⟨n, ⟨hmem, hx⟩, hid⟩

theorem leads_after (hn : d.ids.Nodup) : Leads d.after = d.Waits := by
  funext x y
  exact propext (mem_after_iff hn)

theorem after_subset_ids : d.after x ⊆ d.ids := by
  intro y hy
  obtain ⟨n, hmem, rfl⟩ := List.mem_map.mp hy
  exact List.mem_map_of_mem (List.mem_filter.mp hmem).1

/-- The descendants of an activity are those that start after it has ended. -/
theorem mem_descendants_iff (hn : d.ids.Nodup) : y ∈ d.descendants x ↔ d.Precedes x y := by
  have step : StepIn d.after d.ids = d.Waits := by
    funext a b
    refine propext ((and_iff_left_of_imp ?_).trans (mem_after_iff hn))
    exact fun hb => after_subset_ids hb
  unfold descendants
  rw [List.mem_mergeSort, mem_reached_iff, step]
  rfl

/-! ### Order -/

theorem order_perm (hn : d.ids.Nodup) : d.order.Perm d.ids := lastLeftFirst_perm hn

/-- Every activity stands behind all that it waits for. -/
theorem atEach_order (hs : d.Sound) :
    Sequence.AtEach (fun front y => ∀ x, d.Waits x y → x ∈ front) d.order := by
  have hn := hs.nodup_ids
  have sorted : d.order.Pairwise fun x y => ¬ d.Waits y x := by
    have acyclic : ∀ x, ¬ TransGen (Leads d.after) x x := by
      rw [leads_after hn]
      exact hs.acyclic
    have := pairwise_lastLeftFirst hn (fun _ => after_subset_ids) acyclic
    rwa [leads_after hn] at this
  intro front y back hsplit x hxy
  have hx : x ∈ front ++ y :: back := by
    rw [← hsplit, (order_perm hn).mem_iff]
    exact mem_ids_of_waits hs.known hxy
  rw [hsplit, List.pairwise_append, List.pairwise_cons] at sorted
  rcases List.mem_append.mp hx with hx | hx
  · exact hx
  · rcases List.mem_cons.mp hx with rfl | hx
    · exact absurd (.single hxy) (hs.acyclic x)
    · exact absurd hxy (sorted.2.1.1 x hx)

/-! ### Circles -/

/-- Sorted names of two elements or more that all lead to each other, and with no other one is that
so. -/
structure IsCircle (r : ObjectId → ObjectId → Prop) (ids : List ObjectId) : Prop where
  sorted : ids.Pairwise (· < ·)
  two : 2 ≤ ids.length
  connected : ∀ x ∈ ids, ∀ y, y ∈ ids ↔ TransGen r x y ∧ TransGen r y x

theorem mem_component_iff (hn : d.ids.Nodup) (hk : ∀ n ∈ d.nodes, n.dependsOn ⊆ d.ids)
    (hx : x ∈ d.ids) : y ∈ d.component x ↔ y = x ∨ d.Precedes x y ∧ d.Precedes y x := by
  unfold component
  simp only [List.mem_filter, decide_eq_true_eq, List.contains_iff_mem, mem_ancestors_iff hk,
    mem_descendants_iff hn]
  constructor
  · rintro ⟨-, rfl | ⟨hyx, hxy⟩⟩
    · exact .inl rfl
    · exact .inr ⟨hxy, hyx⟩
  · rintro (rfl | ⟨hxy, hyx⟩)
    · exact ⟨hx, .inl rfl⟩
    · exact ⟨mem_ids_of_precedes hk hyx, .inr ⟨hyx, hxy⟩⟩

theorem nodup_component (hn : d.ids.Nodup) : (d.component x).Nodup := hn.filter _

/-- An activity that waits for itself through others is in a component with one of them. -/
theorem two_le_length_component (hn : d.ids.Nodup) (hk : ∀ n ∈ d.nodes, n.dependsOn ⊆ d.ids)
    (hself : ∀ x, ¬ d.Waits x x) (hx : d.Precedes x x) : 2 ≤ (d.component x).length := by
  have hmem := mem_ids_of_precedes hk hx
  obtain ⟨y, hxy, hyx⟩ := TransGen.head'_iff.mp hx
  have hne : y ≠ x := by
    rintro rfl
    exact hself y hxy
  have hback : d.Precedes y x :=
    (Relation.reflTransGen_iff_eq_or_transGen.mp hyx).resolve_left (Ne.symm hne)
  refine Sequence.two_le_length (a := y) (b := x) ?_ ?_ hne
  · exact (mem_component_iff hn hk hmem).mpr (.inr ⟨.single hxy, hback⟩)
  · exact (mem_component_iff hn hk hmem).mpr (.inl rfl)

/-- In a component of two members or more, all lead to each other. -/
theorem mem_component_iff_of_two (hn : d.ids.Nodup) (hk : ∀ n ∈ d.nodes, n.dependsOn ⊆ d.ids)
    (hx : x ∈ d.ids) (htwo : 2 ≤ (d.component x).length) :
    y ∈ d.component x ↔ d.Precedes x y ∧ d.Precedes y x := by
  have hself : d.Precedes x x := by
    obtain ⟨z, hz, hne⟩ : ∃ z ∈ d.component x, z ≠ x := by
      by_contra hnone
      push Not at hnone
      have alone := List.eq_replicate_of_mem hnone
      have single := List.nodup_replicate.mp (alone ▸ nodup_component hn)
      omega
    have hz := ((mem_component_iff hn hk hx).mp hz).resolve_left hne
    exact hz.1.trans hz.2
  rw [mem_component_iff hn hk hx]
  constructor
  · rintro (rfl | h)
    · exact ⟨hself, hself⟩
    · exact h
  · exact .inr

/-- Names without repetition are sorted strictly. -/
theorem pairwise_lt_mergeSort (hn : ids.Nodup) : (ids.mergeSort (· ≤ ·)).Pairwise (· < ·) := by
  have sorted : (ids.mergeSort (· ≤ ·)).Pairwise (fun a b => decide (a ≤ b) = true) :=
    List.pairwise_mergeSort (by simpa using fun a b c => String.le_trans)
      (by simpa using String.le_total) ids
  have distinct : (ids.mergeSort (· ≤ ·)).Nodup := (List.mergeSort_perm ids _).nodup_iff.mpr hn
  refine (sorted.and distinct).imp fun {a b} h => ?_
  exact lt_of_le_of_ne (by simpa using h.1) h.2

theorem isCircle_component (hn : d.ids.Nodup) (hk : ∀ n ∈ d.nodes, n.dependsOn ⊆ d.ids)
    (hx : x ∈ d.ids) (htwo : 2 ≤ (d.component x).length) :
    IsCircle d.Waits ((d.component x).mergeSort (· ≤ ·)) where
  sorted := pairwise_lt_mergeSort (nodup_component hn)
  two := by rwa [List.length_mergeSort]
  connected := by
    intro y hy z
    rw [List.mem_mergeSort, mem_component_iff_of_two hn hk hx htwo] at hy ⊢
    obtain ⟨hxy, hyx⟩ := hy
    constructor
    · rintro ⟨hxz, hzx⟩
      exact ⟨hyx.trans hxz, hzx.trans hxy⟩
    · rintro ⟨hyz, hzy⟩
      exact ⟨hxy.trans hyz, hzy.trans hyx⟩

/-- What is reported as a circle is one. -/
theorem isCircle_of_cycle? (hn : d.ids.Nodup) (hk : ∀ n ∈ d.nodes, n.dependsOn ⊆ d.ids)
    (hself : ∀ x, ¬ d.Waits x x) (h : d.cycle? = some ids) : IsCircle d.Waits ids := by
  unfold cycle? at h
  split at h
  · next hany =>
      cases h
      obtain ⟨x, hx, hancestor⟩ := List.any_eq_true.mp hany
      rw [List.contains_iff_mem, mem_ancestors_iff hk] at hancestor
      have visited (y : ObjectId) : y ∈ lastLeftFirst d.before d.ids ↔ y ∈ d.ids :=
        (lastLeftFirst_perm hn).mem_iff
      cases hfind : ((lastLeftFirst d.before d.ids).map d.component).find? (1 < ·.length) with
      | none =>
          rw [List.find?_eq_none] at hfind
          have large := two_le_length_component hn hk hself hancestor
          have := hfind _ (List.mem_map_of_mem ((visited x).mpr hx))
          simp only [decide_eq_true_eq] at this
          omega
      | some c =>
          obtain ⟨y, hy, rfl⟩ := List.mem_map.mp (List.mem_of_find?_eq_some hfind)
          have large : 1 < (d.component y).length := by simpa using List.find?_some hfind
          exact isCircle_component hn hk ((visited y).mp hy) large
  · cases h

/-! ### Building -/

variable {as : List Activity}

/-- The activities wait for activities only. -/
def Known (as : List Activity) : Prop := ∀ a ∈ as, a.dependsOn ⊆ as.map Activity.id

/-- The activity `y` waits for the activity `x`, directly or through others. -/
def Behind (as : List Activity) : ObjectId → ObjectId → Prop :=
  TransGen (Sequence.NeededBy Activity.id Activity.dependsOn as)

theorem known_iff : (∀ n ∈ as.map Node.ofActivity, n.dependsOn ⊆ as.map Activity.id) ↔ Known as := by
  rw [List.forall_mem_map]
  rfl

/-- What comes of the activities, one case for each outcome and each with what it is reported for. -/
theorem ofActivities_cases (as : List Activity) :
    (∃ id, ofActivities as = .error (.duplicate id) ∧ 2 ≤ (as.map Activity.id).count id) ∨
    (as.map Activity.id).Nodup ∧
      ((∃ a ∈ as, ∃ x ∈ a.dependsOn, x ∉ as.map Activity.id ∧
          ofActivities as = .error (.unknown a.id x)) ∨
        Known as ∧
          ((∃ ids, ofActivities as = .error (.cycle ids) ∧
              IsCircle (Sequence.NeededBy Activity.id Activity.dependsOn as) ids) ∨
            (∀ x, ¬ Behind as x x) ∧ ofActivities as = .ok ⟨as.map Node.ofActivity⟩)) := by
  have hids : (⟨as.map Node.ofActivity⟩ : Dag).ids = as.map Activity.id := ids_map_ofActivity
  unfold ofActivities
  dsimp only
  cases hrepeated : Sequence.repeated? (⟨as.map Node.ofActivity⟩ : Dag).ids with
  | some id =>
      rw [hids] at hrepeated
      exact .inl ⟨id, rfl, Sequence.two_le_count_of_repeated? hrepeated⟩
  | none =>
      have hn := Sequence.repeated?_eq_none_iff.mp hrepeated
      have hn' := hids ▸ hn
      refine .inr ⟨hn', ?_⟩
      have hwaits := waits_map_ofActivity hn'
      cases hunknown : (⟨as.map Node.ofActivity⟩ : Dag).unknown? with
      | some p =>
          obtain ⟨n, hmem, hx⟩ := List.exists_of_findSome?_eq_some hunknown
          obtain ⟨a, ha, rfl⟩ := List.mem_map.mp hmem
          obtain ⟨x, hfind, rfl⟩ := Option.map_eq_some_iff.mp hx
          have hout := List.find?_some hfind
          rw [hids] at hout
          exact .inl ⟨a, ha, x, List.mem_of_find?_eq_some hfind, by simpa using hout, rfl⟩
      | none =>
          have hk := unknown?_eq_none_iff.mp hunknown
          refine .inr ⟨known_iff.mp (hids ▸ hk), ?_⟩
          cases hcycle : (⟨as.map Node.ofActivity⟩ : Dag).cycle? with
          | some ids =>
              have hself : ∀ x, ¬ (⟨as.map Node.ofActivity⟩ : Dag).Waits x x := by
                intro x hx
                rw [hwaits] at hx
                obtain ⟨a, -, rfl, hx⟩ := hx
                exact a.not_dependsOn_self hx
              have circle := isCircle_of_cycle? hn hk hself hcycle
              rw [hwaits] at circle
              exact .inl ⟨ids, rfl, circle⟩
          | none =>
              have acyclic := (cycle?_eq_none_iff hk).mp hcycle
              unfold Precedes at acyclic
              rw [hwaits] at acyclic
              exact .inr ⟨acyclic, rfl⟩

theorem IsCircle.exists_transGen {r : ObjectId → ObjectId → Prop} (h : IsCircle r ids) :
    ∃ x, TransGen r x x := by
  obtain ⟨x, hx⟩ := List.exists_mem_of_length_pos (l := ids) (by have := h.two; omega)
  exact ⟨x, ((h.connected x hx x).mp hx).1⟩

theorem exists_ok_iff :
    (∃ d, ofActivities as = .ok d) ↔
      (as.map Activity.id).Nodup ∧ Known as ∧ ∀ x, ¬ Behind as x x := by
  constructor
  · rintro ⟨d, h⟩
    obtain ⟨rfl, hs⟩ := ofActivities_eq_ok_iff.mp h
    have hn := ids_map_ofActivity ▸ hs.nodup_ids
    refine ⟨hn, known_iff.mp (ids_map_ofActivity ▸ hs.known), fun x => ?_⟩
    have := hs.acyclic x
    unfold Precedes at this
    rwa [waits_map_ofActivity hn] at this
  · rintro ⟨hn, hk, hacyclic⟩
    rcases ofActivities_cases as with
      ⟨id, -, htwice⟩ | ⟨-, ⟨a, ha, x, hx, hout, -⟩ | ⟨-, ⟨ids, -, hc⟩ | ⟨-, h⟩⟩⟩
    · exact absurd htwice (by have := List.nodup_iff_count_le_one.mp hn id; omega)
    · exact absurd (hk a ha hx) hout
    · obtain ⟨x, hx⟩ := hc.exists_transGen
      exact absurd hx (hacyclic x)
    · exact ⟨_, h⟩

theorem two_le_count_of_duplicate {id : ObjectId} (h : ofActivities as = .error (.duplicate id)) :
    2 ≤ (as.map Activity.id).count id := by
  rcases ofActivities_cases as with
    ⟨id', h', htwice⟩ | ⟨-, ⟨a, -, x, -, -, h'⟩ | ⟨-, ⟨ids, h', -⟩ | ⟨-, h'⟩⟩⟩ <;>
    rw [h] at h' <;> cases h'
  exact htwice

theorem exists_of_unknown {id x : ObjectId} (h : ofActivities as = .error (.unknown id x)) :
    (as.map Activity.id).Nodup ∧ (∃ a ∈ as, a.id = id ∧ x ∈ a.dependsOn) ∧
      x ∉ as.map Activity.id := by
  rcases ofActivities_cases as with
    ⟨id', h', -⟩ | ⟨hn, ⟨a, ha, x, hx, hout, h'⟩ | ⟨-, ⟨ids, h', -⟩ | ⟨-, h'⟩⟩⟩ <;>
    rw [h] at h' <;> cases h'
  exact ⟨hn, ⟨a, ha, rfl, hx⟩, hout⟩

theorem isCircle_of_cycle (h : ofActivities as = .error (.cycle ids)) :
    (as.map Activity.id).Nodup ∧ Known as ∧
      IsCircle (Sequence.NeededBy Activity.id Activity.dependsOn as) ids := by
  rcases ofActivities_cases as with
    ⟨id', h', -⟩ | ⟨hn, ⟨a, -, x, -, -, h'⟩ | ⟨hk, ⟨ids, h', hc⟩ | ⟨-, h'⟩⟩⟩ <;>
    rw [h] at h' <;> cases h'
  exact ⟨hn, hk, hc⟩

theorem exists_duplicate_iff :
    (∃ id, ofActivities as = .error (.duplicate id)) ↔ ¬ (as.map Activity.id).Nodup := by
  constructor
  · rintro ⟨id, h⟩ hn
    have := two_le_count_of_duplicate h
    have := List.nodup_iff_count_le_one.mp hn id
    omega
  · intro hn
    rcases ofActivities_cases as with ⟨id, h, -⟩ | ⟨hn', -⟩
    · exact ⟨id, h⟩
    · exact absurd hn' hn

theorem exists_unknown_iff :
    (∃ id x, ofActivities as = .error (.unknown id x)) ↔
      (as.map Activity.id).Nodup ∧ ¬ Known as := by
  constructor
  · rintro ⟨id, x, h⟩
    obtain ⟨hn, ⟨a, ha, -, hx⟩, hout⟩ := exists_of_unknown h
    exact ⟨hn, fun hk => hout (hk a ha hx)⟩
  · rintro ⟨hn, hk⟩
    rcases ofActivities_cases as with ⟨id, h, -⟩ | ⟨-, ⟨a, -, x, -, -, h⟩ | ⟨hk', -⟩⟩
    · exact absurd hn (exists_duplicate_iff.mp ⟨id, h⟩)
    · exact ⟨a.id, x, h⟩
    · exact absurd hk' hk

theorem exists_cycle_iff :
    (∃ ids, ofActivities as = .error (.cycle ids)) ↔
      (as.map Activity.id).Nodup ∧ Known as ∧ ∃ x, Behind as x x := by
  constructor
  · rintro ⟨ids, h⟩
    obtain ⟨hn, hk, hc⟩ := isCircle_of_cycle h
    exact ⟨hn, hk, hc.exists_transGen⟩
  · rintro ⟨hn, hk, x, hx⟩
    rcases ofActivities_cases as with
      ⟨id, h, -⟩ | ⟨-, ⟨a, -, y, -, -, h⟩ | ⟨-, ⟨ids, h, -⟩ | ⟨hacyclic, -⟩⟩⟩
    · exact absurd hn (exists_duplicate_iff.mp ⟨id, h⟩)
    · exact absurd hk (exists_unknown_iff.mp ⟨a.id, y, h⟩).2
    · exact ⟨ids, h⟩
    · exact absurd hx (hacyclic x)

/-- In the graph of activities, the order has each once and behind all that it waits for, and the ancestors
of one are those that it waits for. -/
theorem order_of_ofActivities (h : ofActivities as = .ok d) :
    d.order.Perm (as.map Activity.id) ∧
      Sequence.AtEach (fun front y =>
        ∀ x, Sequence.NeededBy Activity.id Activity.dependsOn as x y → x ∈ front) d.order ∧
      ∀ y, (∀ x, x ∈ d.ancestors y ↔ Behind as x y) ∧ y ∉ d.ancestors y := by
  obtain ⟨rfl, hs⟩ := ofActivities_eq_ok_iff.mp h
  have hn := ids_map_ofActivity ▸ hs.nodup_ids
  have hwaits := waits_map_ofActivity hn
  refine ⟨ids_map_ofActivity ▸ order_perm hs.nodup_ids, hwaits ▸ atEach_order hs, fun y => ?_⟩
  refine ⟨fun x => ?_, fun hy => hs.acyclic y ((mem_ancestors_iff hs.known).mp hy)⟩
  rw [mem_ancestors_iff hs.known]
  unfold Precedes
  rw [hwaits]
  rfl

/-- Activities have a graph exactly when their ids are distinct, they wait for activities only, and none
waits for itself through others.  Of these, the first that fails is what is reported: an id that stands
there twice, an activity with something that it waits for and that is no activity, or a circle.  The
order of a graph has every activity once, behind all that it waits for, and the ancestors of an activity
are those that it waits for directly or through others, so never itself. -/
theorem ofActivities_verdict (as : List Activity) :
    ((∃ d, ofActivities as = .ok d) ↔
      (as.map Activity.id).Nodup ∧ Known as ∧ ∀ x, ¬ Behind as x x) ∧
    ((∃ id, ofActivities as = .error (.duplicate id)) ↔ ¬ (as.map Activity.id).Nodup) ∧
    ((∃ id x, ofActivities as = .error (.unknown id x)) ↔ (as.map Activity.id).Nodup ∧ ¬ Known as) ∧
    ((∃ ids, ofActivities as = .error (.cycle ids)) ↔
      (as.map Activity.id).Nodup ∧ Known as ∧ ∃ x, Behind as x x) ∧
    (∀ d, ofActivities as = .ok d →
      d.order.Perm (as.map Activity.id) ∧
      Sequence.AtEach (fun front y => ∀ x, Sequence.NeededBy Activity.id Activity.dependsOn as x y →
        x ∈ front) d.order ∧
      ∀ y, (∀ x, x ∈ d.ancestors y ↔ Behind as x y) ∧ y ∉ d.ancestors y) ∧
    (∀ id, ofActivities as = .error (.duplicate id) → 2 ≤ (as.map Activity.id).count id) ∧
    (∀ id x, ofActivities as = .error (.unknown id x) →
      (∃ a ∈ as, a.id = id ∧ x ∈ a.dependsOn) ∧ x ∉ as.map Activity.id) ∧
    ∀ ids, ofActivities as = .error (.cycle ids) →
      IsCircle (Sequence.NeededBy Activity.id Activity.dependsOn as) ids := by
  refine ⟨exists_ok_iff, exists_duplicate_iff, exists_unknown_iff, exists_cycle_iff, ?_, ?_, ?_, ?_⟩
  · exact fun d h => order_of_ofActivities h
  · exact fun id h => two_le_count_of_duplicate h
  · exact fun id x h => (exists_of_unknown h).2
  · exact fun ids h => (isCircle_of_cycle h).2.2

/-- Two activities that wait for each other. -/
def pair : List Activity :=
  let activity (id : ObjectId) : Activity :=
    { id, work := .copy, schedule := "DefaultSchedule", runner := .workerGroup "w" }
  [(activity "a").addDependency "b", (activity "b").addDependency "a"]

theorem ofActivities_verdict_of_triangle_and_pair :
    (∃ d, ofActivities triangle = .ok d ∧ d.order.Perm ["a", "b", "c"] ∧
      (∀ x, x ∈ d.ancestors "c" ↔ Behind triangle x "c") ∧ "c" ∉ d.ancestors "c") ∧
    (∃ id, ofActivities (triangle ++ pair) = .error (.duplicate id)) ∧
    (∃ id x, ofActivities pair.tail = .error (.unknown id x)) ∧
    ∃ ids, ofActivities pair = .error (.cycle ids) ∧
      IsCircle (Sequence.NeededBy Activity.id Activity.dependsOn pair) ids := by
  have hok : ofActivities triangle = .ok ⟨triangle.map Node.ofActivity⟩ := by
    refine ofActivities_eq_ok_iff.mpr ⟨rfl, sound_of_founded (by decide) ?_⟩
    refine ⟨?_, ?_, ?_, trivial⟩
    all_goals decide
  have known : Known pair := by
    unfold Known
    decide
  have behind : Behind pair "a" "a" := by
    have ab : Sequence.NeededBy Activity.id Activity.dependsOn pair "a" "b" := by
      refine ⟨pair[1], by decide, rfl, by decide⟩
    have ba : Sequence.NeededBy Activity.id Activity.dependsOn pair "b" "a" := by
      refine ⟨pair[0], by decide, rfl, by decide⟩
    exact .tail (.single ab) ba
  have unknown : ¬ Known pair.tail := by
    unfold Known
    decide
  obtain ⟨-, -, -, -, built, -⟩ := ofActivities_verdict triangle
  obtain ⟨-, repeated, -⟩ := ofActivities_verdict (triangle ++ pair)
  obtain ⟨-, -, missing, -⟩ := ofActivities_verdict pair.tail
  obtain ⟨-, -, -, circle, -, -, -, isCircle⟩ := ofActivities_verdict pair
  obtain ⟨ids, hids⟩ := circle.mpr ⟨by decide, known, "a", behind⟩
  have hordered := built _ hok
  refine ⟨⟨_, hok, hordered.1, hordered.2.2 "c"⟩, repeated.mpr (by decide), ?_, ?_⟩
  · exact missing.mpr ⟨by decide, unknown⟩
  · exact ⟨ids, hids, isCircle ids hids⟩

end EtlFlow.Dependency.Dag
