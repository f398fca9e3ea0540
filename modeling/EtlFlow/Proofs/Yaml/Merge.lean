import EtlFlow.Proofs.Yaml.Same
import EtlFlow.Yaml.Merge
/-!
# What a merged value holds

Path by path a merged value holds what the upper value says where that ends, what the base says where
the upper value holds nothing, and the merge of both where the upper value has a mapping
(`at?_merge`).  The keys of a merged mapping are those of the base and then the new ones
(`keys_mergeEntries`), and laying the same value over it again changes nothing (`merge_merge`).
-/

namespace EtlFlow.Yaml.Value

variable {b o u v w k q : Value} {p : List Value} {entries lower upper : Entries}

/-! ### Paths -/

/-- The value at a path of keys. -/
def at? : Value → List Value → Option Value
  | v, [] => some v
  | .mapping entries, k :: p => (get? k entries).bind (at? · p)
  | _, _ :: _ => none

/-- The value is a mapping; one under a tag is none. -/
def IsMapping (v : Value) : Prop := ∃ entries, v = .mapping entries

/-- The value has something else than a mapping at the path or before its end. -/
def Ends (v : Value) (p : List Value) : Prop :=
  ∃ front u, front <+: p ∧ v.at? front = some u ∧ ¬ u.IsMapping

@[simp]
theorem isMapping_mapping : (mapping entries).IsMapping := ⟨entries, rfl⟩

@[simp]
theorem at?_nil : v.at? [] = some v := by
  cases v <;> rfl

theorem at?_cons : v.at? (k :: p) = (v.at? [k]).bind (at? · p) := by
  cases v with
  | mapping es => simp [at?]
  | _ => rfl

theorem at?_mapping_cons : (mapping entries).at? (k :: p) = (get? k entries).bind (at? · p) := rfl

theorem at?_cons_of_not_isMapping (h : ¬ v.IsMapping) : v.at? (k :: p) = none := by
  cases v with
  | mapping => exact absurd isMapping_mapping h
  | _ => rfl

theorem ends_of_not_isMapping (h : ¬ v.IsMapping) : v.Ends p := ⟨[], v, List.nil_prefix, at?_nil, h⟩

theorem ends_of_at? (h : v.at? p = some u) (hu : ¬ u.IsMapping) : v.Ends p :=
  ⟨p, u, List.prefix_refl p, h, hu⟩

theorem ends_nil_iff : v.Ends [] ↔ ¬ v.IsMapping := by
  constructor
  · rintro ⟨front, u, hfront, hat, hu⟩
    rw [List.prefix_nil.mp hfront, at?_nil] at hat
    cases hat
    exact hu
  · exact ends_of_not_isMapping

theorem ends_mapping_cons_iff :
    (mapping entries).Ends (k :: p) ↔ ∃ u, get? k entries = some u ∧ u.Ends p := by
  constructor
  · rintro ⟨front, w, hfront, hat, hw⟩
    cases front with
    | nil =>
        rw [at?_nil] at hat
        cases hat
        exact absurd isMapping_mapping hw
    | cons k' front =>
        obtain ⟨rfl, hp⟩ := List.cons_prefix_cons.mp hfront
        obtain ⟨u, hu, hw'⟩ := Option.bind_eq_some_iff.mp hat
        exact ⟨u, hu, front, w, hp, hw', hw⟩
  · rintro ⟨u, hu, front, w, hfront, hat, hw⟩
    refine ⟨k :: front, w, List.cons_prefix_cons.mpr ⟨rfl, hfront⟩, ?_, hw⟩
    rw [at?_mapping_cons, hu]
    exact hat

/-- A path to a mapping leads through mappings only. -/
theorem not_ends_of_at?_mapping (h : v.at? p = some (mapping entries)) : ¬ v.Ends p := by
  induction p generalizing v with
  | nil =>
      rw [at?_nil] at h
      cases h
      exact fun hends => ends_nil_iff.mp hends isMapping_mapping
  | cons k p ih =>
      by_cases hv : v.IsMapping
      · obtain ⟨es, rfl⟩ := hv
        obtain ⟨u, hu, hat⟩ := Option.bind_eq_some_iff.mp h
        rw [ends_mapping_cons_iff]
        rintro ⟨u', hu', hends⟩
        cases hu.symm.trans hu'
        exact ih hat hends
      · rw [at?_cons_of_not_isMapping hv] at h
        cases h

/-! ### Entries -/

/-- The keys of entries. -/
def keys (entries : Entries) : List Value := entries.map Prod.fst

@[simp]
theorem keys_nil : keys [] = [] := rfl

@[simp]
theorem keys_cons {e : Value × Value} : keys (e :: entries) = e.1 :: keys entries := rfl

theorem wellFormed_mapping_iff : (mapping entries).WellFormed ↔
    (keys entries).Pairwise (fun k k' => same k k' = false) ∧ (∀ k ∈ keys entries, k.WellFormed) ∧
      ∀ e ∈ entries, e.2.WellFormed := by
  rw [keys, List.pairwise_map, List.forall_mem_map]
  constructor
  · rintro ⟨⟩
    exact ⟨‹_›, ‹_›, ‹_›⟩
  · rintro ⟨hapart, hkeys, hvalues⟩
    exact .mapping hapart hkeys hvalues

/-- Keys that are the same have the same value. -/
theorem get?_congr (hkeys : ∀ k ∈ keys entries, k.WellFormed) (hk : k.WellFormed) (hq : q.WellFormed)
    (h : same k q) : get? k entries = get? q entries := by
  induction entries with
  | nil => rfl
  | cons e es ih =>
      rw [keys_cons, List.forall_mem_cons] at hkeys
      have hiff : same e.1 k = same e.1 q := Bool.eq_iff_iff.mpr
        ⟨fun he => hkeys.1.same_trans he h, fun he => hkeys.1.same_trans he (hk.same_symm hq h)⟩
      rw [get?, get?, hiff, ih hkeys.2]

theorem get?_put (hkeys : ∀ k ∈ keys entries, k.WellFormed) (hk : k.WellFormed) (hq : q.WellFormed) :
    get? q (put k v entries) = if same k q then some v else get? q entries := by
  induction entries with
  | nil => rfl
  | cons e es ih =>
      rw [keys_cons, List.forall_mem_cons] at hkeys
      rw [put]
      by_cases hek : same e.1 k
      · have hiff : same e.1 q = same k q := Bool.eq_iff_iff.mpr
          ⟨fun he => hk.same_trans (hkeys.1.same_symm hk hek) he, fun hkq => hkeys.1.same_trans hek hkq⟩
        rw [if_pos hek, get?, get?, hiff]
        split <;> rfl
      · rw [if_neg hek, get?, get?, ih hkeys.2]
        by_cases heq : same e.1 q
        · have hkq : ¬ same k q := fun hkq => hek (hkeys.1.same_trans heq (hk.same_symm hq hkq))
          rw [if_pos heq, if_neg hkq, if_pos heq]
        · rw [if_neg heq, if_neg heq]

/-- To put a value where it is already changes nothing. -/
theorem put_get? (h : get? k entries = some v) : put k v entries = entries := by
  induction entries with
  | nil => cases h
  | cons e es ih =>
      rw [get?] at h
      rw [put]
      split at h
      · next he =>
          cases h
          rw [if_pos he]
      · next he => rw [if_neg he, ih h]

theorem keys_put : keys (put k v entries) =
    if (get? k entries).isSome then keys entries else keys entries ++ [k] := by
  induction entries with
  | nil => rfl
  | cons e es ih =>
      rw [put, get?]
      split
      · rfl
      · rw [keys_cons, ih]
        split <;> rfl

theorem get?_of_mem (h : (mapping entries).WellFormed) {e : Value × Value} (he : e ∈ entries) :
    get? e.1 entries = some e.2 := by
  obtain ⟨hapart, hkeys, -⟩ := wellFormed_mapping_iff.mp h
  clear h
  induction entries with
  | nil => cases he
  | cons f fs ih =>
      rw [keys_cons, List.pairwise_cons] at hapart
      rw [keys_cons, List.forall_mem_cons] at hkeys
      rw [get?]
      rcases List.mem_cons.mp he with rfl | he
      · rw [if_pos hkeys.1.same_self]
      · rw [hapart.1 e.1 (List.mem_map_of_mem he), if_neg Bool.false_ne_true,
          ih he hapart.2 hkeys.2]

theorem mem_of_get? (h : get? k entries = some v) : ∃ e ∈ entries, e.2 = v := by
  induction entries with
  | nil => cases h
  | cons e es ih =>
      rw [get?] at h
      split at h
      · exact ⟨e, List.mem_cons_self, Option.some.inj h⟩
      · obtain ⟨f, hf, hv⟩ := ih h
        exact ⟨f, List.mem_cons_of_mem e hf, hv⟩

theorem WellFormed.of_get? (h : (Value.mapping entries).WellFormed) (hv : get? k entries = some v) :
    v.WellFormed := by
  obtain ⟨e, he, rfl⟩ := mem_of_get? hv
  exact (wellFormed_mapping_iff.mp h).2.2 e he

theorem WellFormed.of_at? (h : v.WellFormed) (hu : v.at? p = some u) : u.WellFormed := by
  induction p generalizing v with
  | nil =>
      rw [at?_nil] at hu
      cases hu
      exact h
  | cons k p ih =>
      by_cases hv : v.IsMapping
      · obtain ⟨es, rfl⟩ := hv
        obtain ⟨w, hw, hu⟩ := Option.bind_eq_some_iff.mp hu
        exact ih (h.of_get? hw) hu
      · rw [at?_cons_of_not_isMapping hv] at hu
        cases hu

/-! ### Merging entries -/

theorem mergeEntries_cons {e : Value × Value} : mergeEntries lower (e :: upper) =
    mergeEntries (put e.1 ((get? e.1 lower).elim e.2 (merge · e.2)) lower) upper := by
  rw [mergeEntries]
  cases get? e.1 lower <;> rfl

theorem keys_wellFormed_put (hkeys : ∀ k ∈ keys entries, k.WellFormed) (hk : k.WellFormed) :
    ∀ k' ∈ keys (put k v entries), k'.WellFormed := by
  rw [keys_put]
  split
  · exact hkeys
  · simpa [or_imp, forall_and, hk] using hkeys

/-- A key whose likes come first in a list does not come again. -/
theorem get?_tail_eq_none (hk : k.WellFormed) (hq : q.WellFormed)
    (hapart : ∀ k' ∈ keys entries, same k k' = false) (hkeys : ∀ k' ∈ keys entries, k'.WellFormed)
    (h : same k q) : get? q entries = none := by
  rw [get?_eq_none_iff]
  intro e he
  have hmem : e.1 ∈ keys entries := List.mem_map_of_mem he
  rw [Bool.eq_false_iff]
  intro heq
  have hsame := hk.same_trans h ((hkeys _ hmem).same_symm hq heq)
  rw [hapart _ hmem] at hsame
  cases hsame

/-- Each key has its upper value over its lower one, or the only one that it has. -/
theorem get?_mergeEntries (hlower : ∀ k ∈ keys lower, k.WellFormed)
    (hupper : (mapping upper).WellFormed) (hq : q.WellFormed) :
    get? q (mergeEntries lower upper) = (get? q upper).elim (get? q lower)
      fun v => some ((get? q lower).elim v (merge · v)) := by
  obtain ⟨hapart, hkeys, -⟩ := wellFormed_mapping_iff.mp hupper
  clear hupper
  induction upper generalizing lower with
  | nil => rfl
  | cons e es ih =>
      rw [keys_cons, List.pairwise_cons] at hapart
      rw [keys_cons, List.forall_mem_cons] at hkeys
      rw [mergeEntries_cons, ih (keys_wellFormed_put hlower hkeys.1) hapart.2 hkeys.2,
        get?_put hlower hkeys.1 hq, get?]
      by_cases heq : same e.1 q
      · rw [get?_tail_eq_none hkeys.1 hq hapart.1 hkeys.2 heq, if_pos heq, if_pos heq,
          get?_congr hlower hkeys.1 hq heq]
        rfl
      · rw [if_neg heq, if_neg heq]

/-- The keys of the base stay where they are; those that it does not have follow. -/
theorem keys_mergeEntries (hlower : ∀ k ∈ keys lower, k.WellFormed)
    (hupper : (mapping upper).WellFormed) : keys (mergeEntries lower upper) =
      keys lower ++ (keys upper).filter fun k => (get? k lower).isNone := by
  obtain ⟨hapart, hkeys, -⟩ := wellFormed_mapping_iff.mp hupper
  clear hupper
  induction upper generalizing lower with
  | nil => simp [mergeEntries]
  | cons e es ih =>
      rw [keys_cons, List.pairwise_cons] at hapart
      rw [keys_cons, List.forall_mem_cons] at hkeys
      have hothers : ((keys es).filter fun k =>
            (get? k (put e.1 ((get? e.1 lower).elim e.2 (merge · e.2)) lower)).isNone) =
          (keys es).filter fun k => (get? k lower).isNone := by
        refine List.filter_congr fun k hk => ?_
        rw [get?_put hlower hkeys.1 (hkeys.2 k hk), hapart.1 k hk, if_neg Bool.false_ne_true]
      rw [mergeEntries_cons, ih (keys_wellFormed_put hlower hkeys.1) hapart.2 hkeys.2, hothers,
        keys_put, keys_cons, List.filter_cons]
      cases get? e.1 lower <;> simp

/-! ### Merging values -/

theorem merge_mapping : merge (mapping lower) (mapping upper) = mapping (mergeEntries lower upper) := by
  rw [merge]

theorem merge_of_not_isMapping (h : ¬ o.IsMapping) : merge b o = o := by
  cases o with
  | mapping => exact absurd isMapping_mapping h
  | _ => rw [merge]; simp

theorem merge_mapping_of_not_isMapping (h : ¬ b.IsMapping) : merge b (mapping upper) = mapping upper := by
  cases b with
  | mapping => exact absurd isMapping_mapping h
  | _ => rw [merge]; simp

/-- Where the upper value is a mapping, a merged value has at its keys what the two values have there,
one laid over the other. -/
theorem at?_merge_cons (hb : b.WellFormed) (ho : (mapping upper).WellFormed) (hk : k.WellFormed) :
    (merge b (mapping upper)).at? (k :: p) = (get? k upper).elim (b.at? (k :: p))
      fun v => ((b.at? [k]).elim v (merge · v)).at? p := by
  by_cases hmapping : b.IsMapping
  · obtain ⟨lower, rfl⟩ := hmapping
    have hlower := (wellFormed_mapping_iff.mp hb).2.1
    rw [merge_mapping, at?_mapping_cons, at?_mapping_cons, at?_mapping_cons,
      get?_mergeEntries hlower ho hk]
    cases get? k upper with
    | none => rfl
    | some v => cases get? k lower <;> simp
  · rw [merge_mapping_of_not_isMapping hmapping, at?_mapping_cons, at?_cons_of_not_isMapping hmapping,
      at?_cons_of_not_isMapping hmapping]
    cases get? k upper <;> rfl

/-- What a merged value has at a path: what the upper value has where that ends, what the base has
where the upper value has nothing, and the merge of both elsewhere. -/
theorem at?_merge (hb : b.WellFormed) (ho : o.WellFormed) (hp : ∀ k ∈ p, k.WellFormed) :
    (o.Ends p → (merge b o).at? p = o.at? p) ∧
      (¬ o.Ends p → o.at? p = none → (merge b o).at? p = b.at? p) ∧
      ∀ v, ¬ o.Ends p → o.at? p = some v →
        (merge b o).at? p = some ((b.at? p).elim v (merge · v)) := by
  induction p generalizing b o with
  | nil =>
      rw [ends_nil_iff, not_not, at?_nil, at?_nil, at?_nil]
      refine ⟨fun h => ?_, fun _ h => ?_, fun v _ h => ?_⟩
      · rw [merge_of_not_isMapping h]
      · cases h
      · cases h
        rfl
  | cons k p ih =>
      rw [List.forall_mem_cons] at hp
      by_cases hmapping : o.IsMapping
      · obtain ⟨upper, rfl⟩ := hmapping
        rw [at?_merge_cons hb ho hp.1, ends_mapping_cons_iff, at?_mapping_cons]
        cases hv : get? k upper with
        | none => simp
        | some v =>
            have hends : (∃ u, some v = some u ∧ u.Ends p) ↔ v.Ends p := by simp
            rw [hends, at?_cons, Option.elim_some, Option.bind_some]
            cases hold : b.at? [k] with
            | none => simp
            | some old => exact ih (hb.of_at? hold) (ho.of_get? hv) hp.2
      · rw [merge_of_not_isMapping hmapping]
        have hends : o.Ends (k :: p) := ends_of_not_isMapping hmapping
        exact ⟨fun _ => rfl, fun h => absurd hends h, fun v h => absurd hends h⟩

/-! ### Merged values are well-formed -/

theorem mem_put {e : Value × Value} (h : e ∈ put k v entries) :
    e.2 = v ∨ ∃ f ∈ entries, f.2 = e.2 := by
  induction entries with
  | nil =>
      rw [put, List.mem_singleton] at h
      rw [h]
      exact .inl rfl
  | cons f fs ih =>
      rw [put] at h
      split at h
      · rcases List.mem_cons.mp h with rfl | h
        · exact .inl rfl
        · exact .inr ⟨e, List.mem_cons_of_mem f h, rfl⟩
      · rcases List.mem_cons.mp h with rfl | h
        · exact .inr ⟨_, List.mem_cons_self, rfl⟩
        · refine (ih h).imp_right ?_
          rintro ⟨g, hg, hv⟩
          exact ⟨g, List.mem_cons_of_mem _ hg, hv⟩

theorem WellFormed.put (h : (Value.mapping entries).WellFormed) (hk : k.WellFormed)
    (hv : v.WellFormed) : (Value.mapping (Value.put k v entries)).WellFormed := by
  obtain ⟨hapart, hkeys, hvalues⟩ := wellFormed_mapping_iff.mp h
  refine wellFormed_mapping_iff.mpr ⟨?_, keys_wellFormed_put hkeys hk, fun e he => ?_⟩
  · rw [keys_put]
    cases hget : get? k entries with
    | some old => exact hapart
    | none =>
        rw [if_neg (by simp), List.pairwise_append]
        refine ⟨hapart, List.pairwise_singleton _ _, fun k' hk' q hq => ?_⟩
        obtain ⟨e, he, rfl⟩ := List.mem_map.mp hk'
        rw [List.mem_singleton.mp hq]
        exact get?_eq_none_iff.mp hget e he
  · rcases mem_put he with he | ⟨f, hf, he⟩
    · rwa [he]
    · rw [← he]
      exact hvalues f hf

theorem WellFormed.mergeEntries (hlower : (Value.mapping lower).WellFormed)
    (hupper : ∀ e ∈ upper, e.1.WellFormed ∧ e.2.WellFormed ∧
      ∀ old : Value, old.WellFormed → (Value.merge old e.2).WellFormed) :
    (Value.mapping (Value.mergeEntries lower upper)).WellFormed := by
  induction upper generalizing lower with
  | nil => exact hlower
  | cons e es ih =>
      obtain ⟨⟨hkey, hvalue, hmerge⟩, hes⟩ := List.forall_mem_cons.mp hupper
      rw [mergeEntries_cons]
      refine ih (hlower.put hkey ?_) hes
      cases hold : get? e.1 lower with
      | none => exact hvalue
      | some old => exact hmerge old (hlower.of_get? hold)

/-- To prove something of well-formed values: those that are no mappings, and mappings of whose values it
holds. -/
theorem WellFormed.induction_on_entries {motive : (o : Value) → o.WellFormed → Prop}
    (other : ∀ o (ho : o.WellFormed), ¬ o.IsMapping → motive o ho)
    (entries : ∀ upper (ho : (Value.mapping upper).WellFormed),
      (∀ e ∈ upper, ∀ he : e.2.WellFormed, motive e.2 he) → motive (.mapping upper) ho)
    {o : Value} (ho : o.WellFormed) : motive o ho := by
  induction ho with
  | mapping hapart hkeys hvalues _ ih =>
      exact entries _ (.mapping hapart hkeys hvalues) fun e he _ => ih e he
  | null => exact other _ .null (by rintro ⟨_, ⟨⟩⟩)
  | bool x => exact other _ (.bool x) (by rintro ⟨_, ⟨⟩⟩)
  | int n => exact other _ (.int n) (by rintro ⟨_, ⟨⟩⟩)
  | float x => exact other _ (.float x) (by rintro ⟨_, ⟨⟩⟩)
  | string s => exact other _ (.string s) (by rintro ⟨_, ⟨⟩⟩)
  | sequence hitems => exact other _ (.sequence hitems) (by rintro ⟨_, ⟨⟩⟩)
  | tagged hvalue => exact other _ (.tagged hvalue) (by rintro ⟨_, ⟨⟩⟩)

theorem WellFormed.merge (ho : o.WellFormed) (hb : b.WellFormed) : (Value.merge b o).WellFormed := by
  induction ho using WellFormed.induction_on_entries generalizing b with
  | other o ho hmapping =>
      rw [merge_of_not_isMapping hmapping]
      exact ho
  | entries upper ho ih =>
      obtain ⟨-, hkeys, hvalues⟩ := wellFormed_mapping_iff.mp ho
      by_cases hmapping : b.IsMapping
      · obtain ⟨lower, rfl⟩ := hmapping
        rw [merge_mapping]
        refine hb.mergeEntries fun e he => ⟨hkeys _ (List.mem_map_of_mem he), hvalues e he, ?_⟩
        exact fun old hold => ih e he (hvalues e he) hold
      · rw [merge_mapping_of_not_isMapping hmapping]
        exact ho

/-! ### Merging again -/

theorem mergeEntries_eq_self
    (h : ∀ e ∈ upper, ∃ old, get? e.1 entries = some old ∧ merge old e.2 = old) :
    mergeEntries entries upper = entries := by
  induction upper with
  | nil => rfl
  | cons e es ih =>
      obtain ⟨⟨old, hold, hmerge⟩, hes⟩ := List.forall_mem_cons.mp h
      rw [mergeEntries_cons, hold, Option.elim_some, hmerge, put_get? hold, ih hes]

theorem merge_null : merge .null o = o := by
  by_cases h : o.IsMapping
  · obtain ⟨upper, rfl⟩ := h
    exact merge_mapping_of_not_isMapping (by rintro ⟨_, ⟨⟩⟩)
  · exact merge_of_not_isMapping h

/-- To lay a value over another one again changes nothing. -/
theorem WellFormed.merge_merge (ho : o.WellFormed) (hb : b.WellFormed) :
    Value.merge (Value.merge b o) o = Value.merge b o := by
  induction ho using WellFormed.induction_on_entries generalizing b with
  | other o ho hmapping => rw [merge_of_not_isMapping hmapping, merge_of_not_isMapping hmapping]
  | entries upper ho ih =>
      obtain ⟨-, hkeys, hvalues⟩ := wellFormed_mapping_iff.mp ho
      have hself : ∀ e ∈ upper, Value.merge e.2 e.2 = e.2 := by
        intro e he
        have := ih e he (hvalues e he) .null
        rwa [merge_null] at this
      by_cases hmapping : b.IsMapping
      · obtain ⟨lower, rfl⟩ := hmapping
        rw [merge_mapping, merge_mapping, mergeEntries_eq_self fun e he => ?_]
        have hlower := (wellFormed_mapping_iff.mp hb).2.1
        refine ⟨_, by rw [get?_mergeEntries hlower ho (hkeys _ (List.mem_map_of_mem he)),
          get?_of_mem ho he, Option.elim_some], ?_⟩
        cases hold : get? e.1 lower with
        | none => exact hself e he
        | some old => exact ih e he (hvalues e he) (hb.of_get? hold)
      · rw [merge_mapping_of_not_isMapping hmapping, merge_mapping, mergeEntries_eq_self fun e he => ?_]
        exact ⟨e.2, get?_of_mem ho he, hself e he⟩

end EtlFlow.Yaml.Value
