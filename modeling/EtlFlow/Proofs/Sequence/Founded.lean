import Mathlib.Data.List.Nodup
import Mathlib.Logic.Relation
/-!
# Lists in the order of their needs

Every element of a list has a name and needs the elements of some names.  The list is founded when
each element needs only what stands before it, or what was `known` before the list
(`Founded`).  Then what an element needs, directly or through others, stands before it
(`Founded.before_of_transGen`), so that nothing needs itself (`Founded.acyclic`).
-/

namespace EtlFlow.Sequence

variable {α ι : Type} {name : α → ι} {needs : α → List ι} {known known' : List ι} {as bs : List α}

/-- Each element needs only what is `known` or stands before it. -/
def Founded (name : α → ι) (needs : α → List ι) (known : List ι) : List α → Prop
  | [] => True
  | a :: as => needs a ⊆ known ∧ Founded name needs (name a :: known) as

/-- The element `y` of a list needs the element `x`. -/
def NeededBy (name : α → ι) (needs : α → List ι) (as : List α) (x y : ι) : Prop :=
  ∃ a ∈ as, name a = y ∧ x ∈ needs a

@[simp]
theorem founded_nil : Founded name needs known [] := trivial

@[simp]
theorem founded_cons {a : α} :
    Founded name needs known (a :: as) ↔ needs a ⊆ known ∧ Founded name needs (name a :: known) as :=
  Iff.rfl

/-! ### Making founded lists -/

/-- The needs of an element that needs one other. -/
theorem singleton_subset {x : ι} (h : x ∈ known) : [x] ⊆ known :=
  List.cons_subset.mpr ⟨h, List.nil_subset _⟩

theorem Founded.mono (hk : known ⊆ known') (h : Founded name needs known as) :
    Founded name needs known' as := by
  induction as generalizing known known' with
  | nil => trivial
  | cons a as ih =>
      obtain ⟨ha, has⟩ := h
      refine ⟨fun x hx => hk (ha hx), ih ?_ has⟩
      exact List.cons_subset_cons _ hk

theorem founded_append :
    Founded name needs known (as ++ bs) ↔
      Founded name needs known as ∧ Founded name needs (as.map name ++ known) bs := by
  induction as generalizing known with
  | nil => simp
  | cons a as ih =>
      rw [List.cons_append, founded_cons, ih, founded_cons, and_assoc, List.map_cons]
      have hset : ∀ x, x ∈ as.map name ++ name a :: known ↔ x ∈ name a :: as.map name ++ known := by
        intro x
        simp only [List.mem_append, List.mem_cons, List.cons_append]
        tauto
      have hiff : Founded name needs (as.map name ++ name a :: known) bs ↔
          Founded name needs (name a :: as.map name ++ known) bs :=
        ⟨Founded.mono fun x => (hset x).mp, Founded.mono fun x => (hset x).mpr⟩
      rw [hiff]

/-- Elements may come to need more, as long as all of it is known. -/
theorem Founded.map {f : α → α} {more : List ι} (hname : ∀ a, name (f a) = name a)
    (hneeds : ∀ a ∈ as, needs (f a) ⊆ needs a ++ more) (hmore : more ⊆ known)
    (h : Founded name needs known as) : Founded name needs known (as.map f) := by
  induction as generalizing known with
  | nil => trivial
  | cons a as ih =>
      obtain ⟨ha, has⟩ := h
      rw [List.map_cons, founded_cons, hname]
      constructor
      · intro x hx
        rcases List.mem_append.mp (hneeds a List.mem_cons_self hx) with hx | hx
        · exact ha hx
        · exact hmore hx
      · refine ih (fun b hb => hneeds b (List.mem_cons_of_mem a hb)) ?_ has
        exact fun x hx => List.mem_cons_of_mem _ (hmore hx)

theorem Founded.needs_subset (h : Founded name needs known as) {a : α} (ha : a ∈ as) :
    needs a ⊆ as.map name ++ known := by
  obtain ⟨front, back, rfl⟩ := List.append_of_mem ha
  rw [founded_append, founded_cons] at h
  rw [List.map_append, List.append_assoc]
  intro x hx
  rcases List.mem_append.mp (h.2.1 hx) with hx | hx
  · exact List.mem_append_left _ hx
  · exact List.mem_append_right _ (List.mem_append_right _ hx)

/-- Positions: each element needs elements at smaller positions only. -/
theorem Founded.exists_lt (h : Founded name needs [] as) {j : ℕ} {a : α} (ha : as[j]? = some a)
    {x : ι} (hx : x ∈ needs a) : ∃ i b, i < j ∧ as[i]? = some b ∧ name b = x := by
  have hj : j < as.length := (List.getElem?_eq_some_iff.mp ha).1
  have hsplit : as = as.take j ++ a :: as.drop (j + 1) := by
    rw [← (List.getElem?_eq_some_iff.mp ha).2, List.getElem_cons_drop, List.take_append_drop]
  rw [hsplit, founded_append, founded_cons] at h
  have hmem := h.2.1 hx
  simp only [List.append_nil, List.mem_map] at hmem
  obtain ⟨b, hb, rfl⟩ := hmem
  obtain ⟨i, hi, rfl⟩ := List.mem_iff_getElem.mp hb
  rw [List.length_take] at hi
  refine ⟨i, _, by omega, ?_, rfl⟩
  rw [List.getElem_take, List.getElem?_eq_getElem (by omega)]

/-! ### What stands before an element -/

theorem eq_of_name_eq (hn : (as.map name).Nodup) {a b : α} (ha : a ∈ as) (hb : b ∈ as)
    (h : name a = name b) : a = b :=
  List.inj_on_of_nodup_map hn ha hb h

/-- What an element at the front needs is at the front too. -/
theorem Founded.mem_front (hn : ((as ++ bs).map name).Nodup) (h : Founded name needs [] (as ++ bs))
    {x y : ι} (hxy : NeededBy name needs (as ++ bs) x y) (hy : y ∈ as.map name) :
    x ∈ as.map name := by
  obtain ⟨a, ha, rfl, hx⟩ := hxy
  obtain ⟨b, hb, hba⟩ := List.mem_map.mp hy
  have hab : b = a := eq_of_name_eq hn (List.mem_append_left bs hb) ha hba
  subst hab
  obtain ⟨front, back, rfl⟩ := List.append_of_mem hb
  have hfront := (founded_append.mp h).1
  rw [founded_append, founded_cons] at hfront
  have := hfront.2.1 hx
  simp only [List.append_nil] at this
  rw [List.map_append]
  exact List.mem_append_left _ this

theorem Founded.mem_front_of_transGen (hn : ((as ++ bs).map name).Nodup)
    (h : Founded name needs [] (as ++ bs)) {x y : ι}
    (hxy : Relation.TransGen (NeededBy name needs (as ++ bs)) x y) (hy : y ∈ as.map name) :
    x ∈ as.map name := by
  induction hxy using Relation.TransGen.head_induction_on with
  | single hxy => exact h.mem_front hn hxy hy
  | head hxz _ ih => exact h.mem_front hn hxz ih

/-- What an element at the front needs depends on the front only. -/
theorem neededBy_front_iff (hn : ((as ++ bs).map name).Nodup) {x y : ι} (hy : y ∈ as.map name) :
    NeededBy name needs (as ++ bs) x y ↔ NeededBy name needs as x y := by
  constructor
  · rintro ⟨a, ha, rfl, hx⟩
    obtain ⟨b, hb, hba⟩ := List.mem_map.mp hy
    obtain rfl : b = a := eq_of_name_eq hn (List.mem_append_left bs hb) ha hba
    exact ⟨b, hb, rfl, hx⟩
  · rintro ⟨a, ha, rfl, hx⟩
    exact ⟨a, List.mem_append_left bs ha, rfl, hx⟩

theorem Founded.transGen_front_iff (hn : ((as ++ bs).map name).Nodup)
    (h : Founded name needs [] (as ++ bs)) {x y : ι} (hy : y ∈ as.map name) :
    Relation.TransGen (NeededBy name needs (as ++ bs)) x y ↔
      Relation.TransGen (NeededBy name needs as) x y := by
  constructor
  · intro hxy
    induction hxy with
    | single hxy => exact .single ((neededBy_front_iff hn hy).mp hxy)
    | tail _ hzy ih => exact .tail (ih (h.mem_front hn hzy hy)) ((neededBy_front_iff hn hy).mp hzy)
  · intro hxy
    refine hxy.lift id fun z w hzw => ?_
    obtain ⟨a, ha, rfl, hz⟩ := hzw
    exact ⟨a, List.mem_append_left bs ha, rfl, hz⟩

/-- What an element needs, directly or through others, stands before it. -/
theorem Founded.before_of_transGen (hn : (as.map name).Nodup) (h : Founded name needs [] as)
    {x y : ι} (hxy : Relation.TransGen (NeededBy name needs as) x y) :
    ∃ front a back, as = front ++ a :: back ∧ name a = y ∧ x ∈ front.map name := by
  obtain ⟨z, hxz, a, ha, rfl, hz⟩ : ∃ z, Relation.ReflTransGen (NeededBy name needs as) x z ∧
      NeededBy name needs as z y := Relation.TransGen.tail'_iff.mp hxy
  obtain ⟨front, back, rfl⟩ := List.append_of_mem ha
  refine ⟨front, a, back, rfl, rfl, ?_⟩
  have hfront : z ∈ front.map name := by
    have := (founded_append.mp h).2.1 hz
    simpa using this
  rcases Relation.reflTransGen_iff_eq_or_transGen.mp hxz with rfl | hxz
  · exact hfront
  · exact h.mem_front_of_transGen hn hxz hfront

/-- Nothing needs itself. -/
theorem Founded.acyclic (hn : (as.map name).Nodup) (h : Founded name needs [] as) (x : ι) :
    ¬ Relation.TransGen (NeededBy name needs as) x x := by
  intro hx
  obtain ⟨front, a, back, rfl, rfl, hmem⟩ := h.before_of_transGen hn hx
  rw [List.map_append, List.map_cons, List.nodup_append] at hn
  exact hn.2.2 _ hmem _ List.mem_cons_self rfl

/-! ### Every position -/

/-- Each element is related to what stands before it. -/
def AtEach (r : List α → α → Prop) (as : List α) : Prop :=
  ∀ front a back, as = front ++ a :: back → r front a

theorem atEach_nil {r : List α → α → Prop} : AtEach r [] := by
  intro front a back h
  cases front <;> cases h

theorem atEach_append_singleton {r : List α → α → Prop} {a : α} :
    AtEach r (as ++ [a]) ↔ AtEach r as ∧ r as a := by
  constructor
  · intro h
    refine ⟨?_, h as a [] rfl⟩
    rintro front b back rfl
    exact h front b (back ++ [a]) (by simp)
  · rintro ⟨has, ha⟩ front b back h
    rcases List.eq_nil_or_concat back with rfl | ⟨back, c, rfl⟩
    · obtain ⟨rfl, hb⟩ := List.append_inj' h rfl
      cases hb
      exact ha
    · rw [List.concat_eq_append, ← List.cons_append, ← List.append_assoc] at h
      obtain ⟨rfl, _⟩ := List.append_inj' h rfl
      exact has front b back rfl

/-- What holds of an element behind everything holds at each further position. -/
theorem AtEach.append {r : List α → α → Prop} (has : AtEach r as)
    (hbs : ∀ front, ∀ b ∈ bs, r (as ++ front) b) : AtEach r (as ++ bs) := by
  induction bs generalizing as with
  | nil =>
      rw [List.append_nil]
      exact has
  | cons b bs ih =>
      rw [List.append_cons]
      refine ih (atEach_append_singleton.mpr ⟨has, ?_⟩) fun front c hc => ?_
      · simpa using hbs [] b List.mem_cons_self
      · rw [List.append_assoc, List.singleton_append]
        exact hbs (b :: front) c (List.mem_cons_of_mem b hc)

/-- In a founded list each element needs what stands before it or was known before. -/
theorem Founded.atEach (h : Founded name needs known as) :
    AtEach (fun front a => needs a ⊆ front.map name ++ known) as := by
  rintro front a back rfl
  rw [founded_append, founded_cons] at h
  exact h.2.1

theorem AtEach.imp {r r' : List α → α → Prop} (h : AtEach r as)
    (himp : ∀ front, ∀ a ∈ as, r front a → r' front a) : AtEach r' as :=
  fun front a back has => himp front a (by simp [has]) (h front a back has)

end EtlFlow.Sequence
