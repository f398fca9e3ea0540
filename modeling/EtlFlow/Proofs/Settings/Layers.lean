import EtlFlow.Proofs.Yaml.Merge
import EtlFlow.Settings.Layers
/-!
# Layers of settings

The settings are read from one value, the layers of the files laid over each other (`load_eq`).  A
later layer takes precedence path by path (`merge_precedence`): what no later layer touches stays as the
last layer that says it has it.
-/

namespace EtlFlow.Settings

open Outcome (bind_eq_ok_iff mapError_eq_ok_iff)
open Yaml Yaml.Value

variable {files : Files.Tree} {paths : List String} {b o v base : Value} {p : List Value}
  {layers : List Value}

/-- The layers laid over each other, each over the ones before it. -/
def layered : List Value → Option Value
  | [] => none
  | first :: others => some (others.foldl merge first)

/-! ### Reading -/

theorem wellFormed_of_readLayer {path : String} (h : readLayer files path = .ok v) :
    v.WellFormed := by
  simp only [readLayer, bind_eq_ok_iff, mapError_eq_ok_iff] at h
  obtain ⟨text, -, value, hvalue, h⟩ := h
  split at h
  · cases h
    exact .mapping .nil (by simp) (by simp)
  · cases h
    exact wellFormed_of_parse hvalue

/-- Settings are read from the layers of the files that there are. -/
theorem load_eq (h : (paths.filter files.isFile).mapM (readLayer files) = .ok layers) :
    load files paths = (layered layers).elim (.error (.noFile paths)) ofValue := by
  unfold load
  rw [h]
  cases layers <;> rfl

/-! ### Precedence -/

theorem wellFormed_foldl_merge (hbase : base.WellFormed) (h : ∀ l ∈ layers, l.WellFormed) :
    (layers.foldl merge base).WellFormed := by
  induction layers generalizing base with
  | nil => exact hbase
  | cons l ls ih =>
      rw [List.forall_mem_cons] at h
      exact ih (h.1.merge hbase) h.2

/-- Layers that hold nothing at a path, and nothing before its end but mappings, leave it as it is. -/
theorem at?_foldl_merge (hbase : base.WellFormed) (h : ∀ l ∈ layers, l.WellFormed)
    (hp : ∀ k ∈ p, k.WellFormed) (hlayers : ∀ l ∈ layers, l.at? p = none ∧ ¬ l.Ends p) :
    (layers.foldl merge base).at? p = base.at? p := by
  induction layers generalizing base with
  | nil => rfl
  | cons l ls ih =>
      rw [List.forall_mem_cons] at h hlayers
      rw [List.foldl_cons, ih (h.1.merge hbase) h.2 hlayers.2]
      exact (at?_merge hbase h.1 hp).2.1 hlayers.1.2 hlayers.1.1

/-- The last layer that has something else than a mapping at a path decides what stands there. -/
theorem exists_layered {front back : List Value} {layer : Value}
    (h : ∀ l ∈ front ++ layer :: back, l.WellFormed) (hp : ∀ k ∈ p, k.WellFormed)
    (hv : layer.at? p = some v) (hends : ¬ v.IsMapping)
    (hback : ∀ l ∈ back, l.at? p = none ∧ ¬ l.Ends p) :
    ∃ merged, layered (front ++ layer :: back) = some merged ∧ merged.at? p = some v := by
  rw [List.forall_mem_append, List.forall_mem_cons] at h
  obtain ⟨hfront, hlayer, hlater⟩ := h
  cases front with
  | nil => exact ⟨_, rfl, (at?_foldl_merge hlayer hlater hp hback).trans hv⟩
  | cons first front =>
      rw [List.forall_mem_cons] at hfront
      have hbase := wellFormed_foldl_merge hfront.1 hfront.2
      refine ⟨back.foldl merge (merge (front.foldl merge first) layer), ?_, ?_⟩
      · rw [List.cons_append, layered, List.foldl_append, List.foldl_cons]
      · rw [at?_foldl_merge (hlayer.merge hbase) hlater hp hback,
          (at?_merge hbase hlayer hp).1 (ends_of_at? hv hends), hv]

/-- What `o` over `b` has at a path, in which order it has its keys, and that laying `o` over it again
changes nothing; so that of the layers of settings the last one that says something at a path decides
it. -/
theorem merge_precedence (hb : b.WellFormed) (ho : o.WellFormed) (hp : ∀ k ∈ p, k.WellFormed) :
    ((o.Ends p → (merge b o).at? p = o.at? p) ∧
      (¬ o.Ends p → o.at? p = none → (merge b o).at? p = b.at? p) ∧
      ∀ v, ¬ o.Ends p → o.at? p = some v → v.IsMapping ∧
        (merge b o).at? p = some ((b.at? p).elim v (merge · v))) ∧
    (∀ lower upper, b.at? p = some (.mapping lower) → o.at? p = some (.mapping upper) →
      ∃ entries, (merge b o).at? p = some (.mapping entries) ∧
        keys entries = keys lower ++ (keys upper).filter fun k => (get? k lower).isNone) ∧
    merge (merge b o) o = merge b o ∧
    ∀ files paths front layer back v,
      (paths.filter files.isFile).mapM (readLayer files) = .ok (front ++ layer :: back) →
      layer.at? p = some v → ¬ v.IsMapping → (∀ l ∈ back, l.at? p = none ∧ ¬ l.Ends p) →
      ∃ merged, layered (front ++ layer :: back) = some merged ∧
        load files paths = ofValue merged ∧ merged.at? p = some v := by
  obtain ⟨hupper, hlower, hboth⟩ := at?_merge hb ho hp
  refine ⟨⟨hupper, hlower, fun v hends hv => ⟨?_, hboth v hends hv⟩⟩, ?_, ho.merge_merge hb, ?_⟩
  · by_contra hmapping
    exact hends (ends_of_at? hv hmapping)
  · intro lower upper hl hu
    refine ⟨mergeEntries lower upper, ?_, ?_⟩
    · rw [hboth _ (not_ends_of_at?_mapping hu) hu, hl, Option.elim_some, merge_mapping]
    · exact keys_mergeEntries (wellFormed_mapping_iff.mp (hb.of_at? hl)).2.1 (ho.of_at? hu)
  · intro files paths front layer back v hread hv hends hback
    have hlayers : ∀ l ∈ front ++ layer :: back, l.WellFormed := by
      intro l hl
      obtain ⟨path, -, hpath⟩ := Outcome.exists_of_mem_mapM hread hl
      exact wellFormed_of_readLayer hpath
    obtain ⟨merged, hmerged, hat⟩ := exists_layered hlayers hp hv hends hback
    refine ⟨merged, hmerged, ?_, hat⟩
    rw [load_eq hread, hmerged]
    rfl

theorem merge_precedence_mode : ∃ m,
    merge (.mapping [(.string "etl",
        .mapping [(.string "mode", .string "append"), (.string "retries", .int 2)])])
      (.mapping [(.string "etl", .mapping [(.string "mode", .string "replace")])]) = m ∧
    m.at? [.string "etl", .string "mode"] = some (.string "replace") := by
  have lower : (Value.mapping [(.string "etl",
      .mapping [(.string "mode", .string "append"), (.string "retries", .int 2)])]).WellFormed := by
    simp [wellFormed_mapping_iff, same, WellFormed.string, WellFormed.int]
  have upper : (Value.mapping [(.string "etl",
      .mapping [(.string "mode", .string "replace")])]).WellFormed := by
    simp [wellFormed_mapping_iff, WellFormed.string]
  have path : ∀ k ∈ [Value.string "etl", .string "mode"], k.WellFormed := by
    simp [WellFormed.string]
  have replaced : (Value.mapping [(.string "etl",
      .mapping [(.string "mode", .string "replace")])]).at? [.string "etl", .string "mode"] =
        some (.string "replace") := by
    simp [at?, get?, same]
  have other : ¬ (Value.string "replace").IsMapping := by
    rintro ⟨_, ⟨⟩⟩
  exact ⟨_, rfl, ((merge_precedence lower upper path).1.1 (ends_of_at? replaced other)).trans replaced⟩

end EtlFlow.Settings
