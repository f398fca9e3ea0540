import EtlFlow.Proofs.Dependency.Ancestry
import EtlFlow.Proofs.Workflow.References
import Mathlib.Data.Finset.Card
/-!
# Reduction

An edge of an acyclic graph is essential when no longer path leads along it.  The essential edges
alone reach what all edges reach (`transGen_essential_iff`).  `reduced` keeps exactly the essential
ones (`mem_reduced_iff`), so that activities that wait only for these have the same ancestors as
before (`ofActivities_withReduced`).
-/

namespace EtlFlow.Dependency

open Relation (TransGen)

/-! ### Essential edges -/

section Essential

variable {α : Type} {r : α → α → Prop} {x y : α}

/-- An edge that no longer path replaces. -/
def Essential (r : α → α → Prop) (x y : α) : Prop := r x y ∧ ¬ ∃ z, r z y ∧ TransGen r x z

theorem rank_lt_of_transGen {rank : α → ℕ} (hrank : ∀ x y, r x y → rank x < rank y)
    (h : TransGen r x y) :
    rank x < rank y := by
  induction h with
  | single h => exact hrank _ _ h
  | tail _ h ih => exact ih.trans (hrank _ _ h)

/-- By induction on how far the ranks of the two ends are apart: an edge that is not essential, like
a path of several edges, splits at an element whose rank lies between. -/
theorem transGen_essential_of_rank {rank : α → ℕ} (hrank : ∀ x y, r x y → rank x < rank y) (n : ℕ)
    (hn : rank y ≤ rank x + n) (h : TransGen r x y) : TransGen (Essential r) x y := by
  induction n using Nat.strong_induction_on generalizing x y with
  | _ n ih =>
      have split {z : α} (hxz : TransGen r x z) (hzy : TransGen r z y) : TransGen (Essential r) x y := by
        have h₁ := rank_lt_of_transGen hrank hxz
        have h₂ := rank_lt_of_transGen hrank hzy
        have hxz' := ih (rank z - rank x) (by omega) (by omega) hxz
        have hzy' := ih (rank y - rank z) (by omega) (by omega) hzy
        exact hxz'.trans hzy'
      rcases TransGen.head'_iff.mp h with ⟨w, hxw, hwy⟩
      rcases Relation.reflTransGen_iff_eq_or_transGen.mp hwy with rfl | hwy
      · by_cases hlonger : ∃ z, r z y ∧ TransGen r x z
        · obtain ⟨z, hzy, hxz⟩ := hlonger
          exact split hxz (.single hzy)
        · exact .single ⟨hxw, hlonger⟩
      · exact split (.single hxw) hwy

/-- Essential edges reach what all edges reach. -/
theorem transGen_essential_iff {rank : α → ℕ} (hrank : ∀ x y, r x y → rank x < rank y) :
    TransGen (Essential r) x y ↔ TransGen r x y := by
  constructor
  · exact fun h => h.lift id fun _ _ he => he.1
  · exact fun h => transGen_essential_of_rank hrank (rank y) (by omega) h

end Essential

namespace Dag

open Workflow (ObjectId Activity)

variable {d : Dag} {as : List Activity} {x y : ObjectId}

/-! ### What the reduction keeps -/

/-- The number of ancestors. -/
def rank (d : Dag) (x : ObjectId) : ℕ := (d.ancestors x).toFinset.card

theorem Sound.rank_lt (hs : d.Sound) (h : d.Waits x y) : d.rank x < d.rank y := by
  apply Finset.card_lt_card
  rw [Finset.ssubset_iff_of_subset]
  · refine ⟨x, ?_, ?_⟩
    · rw [List.mem_toFinset, mem_ancestors_iff hs.known]
      exact .single h
    · rw [List.mem_toFinset, mem_ancestors_iff hs.known]
      exact hs.acyclic x
  · intro z hz
    rw [List.mem_toFinset, mem_ancestors_iff hs.known] at hz ⊢
    exact hz.tail h

theorem mem_reduced_iff (hk : ∀ n ∈ d.nodes, n.dependsOn ⊆ d.ids) :
    x ∈ d.reduced y ↔ Essential d.Waits x y := by
  have himplied : x ∈ closure d.before d.ids [] ((d.before y).flatMap d.before) ↔
      ∃ z, d.Waits z y ∧ d.Precedes x z := by
    rw [mem_closure_iff, stepIn_before_iff hk]
    constructor
    · rintro ⟨a, ha, _, hpath⟩
      obtain ⟨z, hz, haz⟩ := List.mem_flatMap.mp ha
      exact ⟨z, hz, TransGen.tail' (Relation.reflTransGen_swap.mp hpath) haz⟩
    · rintro ⟨z, hz, hxz⟩
      obtain ⟨a, hxa, haz⟩ := TransGen.tail'_iff.mp hxz
      refine ⟨a, List.mem_flatMap.mpr ⟨z, hz, haz⟩, mem_ids_of_waits hk haz, ?_⟩
      exact Relation.reflTransGen_swap.mpr hxa
  unfold reduced Essential
  simp only [List.mem_filter, Bool.not_eq_true', List.contains_eq_mem, decide_eq_false_iff_not, himplied]
  rfl

theorem reduced_sublist : (d.reduced y).Sublist (d.before y) := List.filter_sublist

/-- What the reduction keeps of what an activity waits for depends on earlier activities only. -/
theorem reduced_front {bs : List Activity} (hn : ((as ++ bs).map Activity.id).Nodup)
    (h : Sequence.Founded Activity.id Activity.dependsOn [] (as ++ bs)) {a : Activity} (ha : a ∈ as) :
    (⟨(as ++ bs).map Node.ofActivity⟩ : Dag).reduced a.id =
      (⟨as.map Node.ofActivity⟩ : Dag).reduced a.id := by
  have hn' : (as.map Activity.id).Nodup := by
    rw [List.map_append] at hn
    exact (List.nodup_append.mp hn).1
  have hs := sound_of_founded hn h
  have hs' := sound_of_founded hn' (Sequence.founded_append.mp h).1
  have hid : a.id ∈ as.map Activity.id := List.mem_map_of_mem ha
  have hmem (x : ObjectId) : x ∈ (⟨(as ++ bs).map Node.ofActivity⟩ : Dag).reduced a.id ↔
      x ∈ (⟨as.map Node.ofActivity⟩ : Dag).reduced a.id := by
    rw [mem_reduced_iff hs.known, mem_reduced_iff hs'.known, waits_map_ofActivity hn,
      waits_map_ofActivity hn', Essential, Essential, Sequence.neededBy_front_iff hn hid]
    refine and_congr_right fun _ => not_congr (exists_congr fun z => ?_)
    rw [Sequence.neededBy_front_iff hn hid]
    refine and_congr_right fun hz => ?_
    refine h.transGen_front_iff hn (h.mem_front hn ?_ hid)
    exact (Sequence.neededBy_front_iff hn hid).mpr hz
  simp only [reduced, before_ofActivity hn (List.mem_append_left bs ha), before_ofActivity hn' ha,
    List.mem_filter] at hmem ⊢
  refine List.filter_congr fun x hx => ?_
  rw [Bool.eq_iff_iff]
  simpa only [hx, true_and] using hmem x

/-! ### Reduced activities -/

/-- The activities, each one waiting only for what the reduction keeps. -/
def withReduced (d : Dag) (as : List Activity) : List Activity :=
  as.map fun a => a.setDependencies (d.reduced a.id)

theorem ids_withReduced : (d.withReduced as).map Activity.id = as.map Activity.id := by
  unfold withReduced
  rw [List.map_map]
  apply List.map_congr_left
  intro a _
  exact Activity.id_setDependencies a _

theorem reduced_sublist_dependsOn (h : ofActivities as = .ok d) {a : Activity} (ha : a ∈ as) :
    (d.reduced a.id).Sublist a.dependsOn := by
  obtain ⟨rfl, hs⟩ := ofActivities_eq_ok_iff.mp h
  have hn := hs.nodup_ids
  rw [ids_map_ofActivity] at hn
  rw [← before_ofActivity hn ha]
  exact reduced_sublist

/-- The reduction of an activity's own list can be set as it is. -/
theorem dependsOn_setDependencies_reduced (h : ofActivities as = .ok d) {a : Activity}
    (ha : a ∈ as) :
    (a.setDependencies (d.reduced a.id)).dependsOn = d.reduced a.id := by
  have hsub := reduced_sublist_dependsOn h ha
  apply Activity.dependsOn_setDependencies
  · exact a.nodup_dependsOn.sublist hsub
  · exact fun hself => a.not_dependsOn_self (hsub.subset hself)

/-- After the reduction, an activity waits for another one exactly when the edge was essential. -/
theorem waits_withReduced (h : ofActivities as = .ok d) :
    (⟨(d.withReduced as).map Node.ofActivity⟩ : Dag).Waits = Essential d.Waits := by
  obtain ⟨hd, hs⟩ := ofActivities_eq_ok_iff.mp h
  have hn : (as.map Activity.id).Nodup := by
    have := hs.nodup_ids
    rwa [hd, ids_map_ofActivity] at this
  rw [waits_map_ofActivity (by rwa [ids_withReduced])]
  funext x y
  apply propext
  constructor
  · rintro ⟨b, hb, rfl, hx⟩
    obtain ⟨a, ha, rfl⟩ := List.mem_map.mp hb
    rw [dependsOn_setDependencies_reduced h ha] at hx
    rw [Activity.id_setDependencies]
    exact (mem_reduced_iff hs.known).mp hx
  · intro hxy
    have hw : Sequence.NeededBy Activity.id Activity.dependsOn as x y := by
      rw [← waits_map_ofActivity hn, ← hd]
      exact hxy.1
    obtain ⟨a, ha, rfl, _⟩ := hw
    refine ⟨_, List.mem_map_of_mem ha, Activity.id_setDependencies a _, ?_⟩
    rw [dependsOn_setDependencies_reduced h ha]
    exact (mem_reduced_iff hs.known).mpr hxy

/-- The reduction keeps the order of activities. -/
theorem precedes_withReduced (h : ofActivities as = .ok d) :
    (⟨(d.withReduced as).map Node.ofActivity⟩ : Dag).Precedes = d.Precedes := by
  have hs := (ofActivities_eq_ok_iff.mp h).2
  funext x y
  apply propext
  unfold Precedes
  rw [waits_withReduced h]
  exact transGen_essential_iff fun _ _ => hs.rank_lt

/-- Reduced activities have an order again. -/
theorem ofActivities_withReduced (h : ofActivities as = .ok d) :
    ofActivities (d.withReduced as) = .ok ⟨(d.withReduced as).map Node.ofActivity⟩ := by
  obtain ⟨hd, hs⟩ := ofActivities_eq_ok_iff.mp h
  have hids : (⟨(d.withReduced as).map Node.ofActivity⟩ : Dag).ids = d.ids := by
    rw [hd, ids_map_ofActivity, ids_map_ofActivity, ids_withReduced]
  refine ofActivities_eq_ok_iff.mpr ⟨rfl, ?_, ?_, ?_⟩
  · rw [hids]
    exact hs.nodup_ids
  · intro n hn x hx
    obtain ⟨b, hb, rfl⟩ := List.mem_map.mp hn
    obtain ⟨a, ha, rfl⟩ := List.mem_map.mp hb
    have hx' : x ∈ d.reduced a.id := by
      rw [← dependsOn_setDependencies_reduced h ha]
      exact hx
    rw [hids]
    exact mem_ids_of_waits hs.known ((mem_reduced_iff hs.known).mp hx').1
  · intro x
    rw [precedes_withReduced h]
    exact hs.acyclic x

/-- The ancestors depend on nothing but the ids and the order. -/
theorem ancestors_congr {d' : Dag} (hs : d.Sound) (hs' : d'.Sound) (hids : d'.ids = d.ids)
    (hp : d'.Precedes = d.Precedes) (id : ObjectId) : d'.ancestors id = d.ancestors id := by
  have hreached : reached d'.before d.ids id = reached d.before d.ids id := by
    apply reached_congr
    intro x
    have h' : x ∈ d'.ancestors id ↔ d'.Precedes x id := mem_ancestors_iff hs'.known
    have h : x ∈ d.ancestors id ↔ d.Precedes x id := mem_ancestors_iff hs.known
    unfold ancestors at h h'
    rw [List.mem_mergeSort] at h h'
    rw [← hids, h', hids, h, hp]
  unfold ancestors
  rw [hids, hreached]

/-- Nothing is left to reduce in what is reduced. -/
theorem reduced_eq_before {d' : Dag} (hs : d'.Sound) (he : Essential d'.Waits = d'.Waits) :
    d'.reduced y = d'.before y := by
  unfold reduced
  rw [List.filter_eq_self]
  intro x hx
  have hmem : x ∈ d'.reduced y := by
    rw [mem_reduced_iff hs.known, he]
    exact hx
  exact (List.mem_filter.mp hmem).2

theorem essential_essential {α : Type} {r : α → α → Prop}
    (h : Relation.TransGen (Essential r) = TransGen r) :
    Essential (Essential r) = Essential r := by
  funext x y
  apply propext
  constructor
  · intro hxy
    exact hxy.1
  · intro hxy
    refine ⟨hxy, ?_⟩
    rintro ⟨z, hzy, hxz⟩
    rw [h] at hxz
    exact hxy.2 ⟨z, hzy.1, hxz⟩

theorem reduced_withReduced {d' : Dag} (h : ofActivities as = .ok d)
    (h' : ofActivities (d.withReduced as) = .ok d') :
    d'.withReduced (d.withReduced as) = d.withReduced as := by
  have hp := precedes_withReduced h
  have hw := waits_withReduced h
  obtain ⟨rfl, hs'⟩ := ofActivities_eq_ok_iff.mp h'
  have hn := hs'.nodup_ids
  rw [ids_map_ofActivity] at hn
  unfold Precedes at hp
  rw [hw] at hp
  have he := essential_essential hp
  rw [← hw] at he
  conv_rhs => rw [← List.map_id (d.withReduced as)]
  apply List.map_congr_left
  intro b hb
  rw [reduced_eq_before hs' he, before_ofActivity hn hb]
  exact Activity.setDependencies_self

/-! ### The transitive reduction -/

/-- Whatever activities have an order, the reduced ones have one too, in which every activity has
the ancestors that it had, and these are what it waits for directly or through others.  No activity
waits for an ancestor of another one that it waits for.  Each one waits for some of those that it
waited for, in their order, and is otherwise as it was.  Reducing again changes nothing. -/
theorem withReduced_transitive_reduction (h : ofActivities as = .ok d) :
    ∃ d', ofActivities (d.withReduced as) = .ok d' ∧
      (∀ id, d'.ancestors id = d.ancestors id ∧ ∀ x, x ∈ d.ancestors id ↔ d.Precedes x id) ∧
      (∀ b ∈ d.withReduced as, ∀ x ∈ b.dependsOn, ∀ y ∈ b.dependsOn, x ∉ d'.ancestors y) ∧
      List.Forall₂ (fun a b => b.independent = a.independent ∧ b.dependsOn.Sublist a.dependsOn) as
        (d.withReduced as) ∧
      d'.withReduced (d.withReduced as) = d.withReduced as := by
  obtain ⟨hd, hs⟩ := ofActivities_eq_ok_iff.mp h
  have h' := ofActivities_withReduced h
  have hs' := (ofActivities_eq_ok_iff.mp h').2
  refine ⟨_, h', ?_, ?_, ?_, reduced_withReduced h h'⟩
  · intro id
    refine ⟨?_, fun x => mem_ancestors_iff hs.known⟩
    apply ancestors_congr hs hs' _ (precedes_withReduced h)
    rw [hd, ids_map_ofActivity, ids_map_ofActivity, ids_withReduced]
  · intro b hb x hx y hy hxy
    obtain ⟨a, ha, rfl⟩ := List.mem_map.mp hb
    rw [dependsOn_setDependencies_reduced h ha, mem_reduced_iff hs.known] at hx hy
    rw [mem_ancestors_iff hs'.known, precedes_withReduced h] at hxy
    exact hx.2 ⟨y, hy.1, hxy⟩
  · unfold withReduced
    rw [List.forall₂_map_right_iff, List.forall₂_same]
    intro a ha
    refine ⟨Activity.independent_setDependencies a _, ?_⟩
    rw [dependsOn_setDependencies_reduced h ha]
    exact reduced_sublist_dependsOn h ha

/-- Three activities, of which the last one waits for both others. -/
def triangle : List Activity :=
  let activity (id : ObjectId) : Activity :=
    { id, work := .copy, schedule := "DefaultSchedule", runner := .workerGroup "w" }
  [activity "a", (activity "b").addDependency "a", (activity "c").addDependencies ["a", "b"]]

theorem withReduced_triangle :
    ∃ d, ofActivities triangle = .ok d ∧
      ∃ d', ofActivities (d.withReduced triangle) = .ok d' ∧
        (∀ id, d'.ancestors id = d.ancestors id ∧ ∀ x, x ∈ d.ancestors id ↔ d.Precedes x id) ∧
        (∀ b ∈ d.withReduced triangle, ∀ x ∈ b.dependsOn, ∀ y ∈ b.dependsOn, x ∉ d'.ancestors y) ∧
        List.Forall₂ (fun a b => b.independent = a.independent ∧ b.dependsOn.Sublist a.dependsOn) triangle
          (d.withReduced triangle) ∧
        d'.withReduced (d.withReduced triangle) = d.withReduced triangle := by
  have hok : ofActivities triangle = .ok ⟨triangle.map Node.ofActivity⟩ := by
    refine ofActivities_eq_ok_iff.mpr ⟨rfl, sound_of_founded ?_ ?_⟩
    · decide
    · refine ⟨?_, ?_, ?_, trivial⟩
      all_goals decide
  exact ⟨_, hok, withReduced_transitive_reduction hok⟩

end Dag

end EtlFlow.Dependency
