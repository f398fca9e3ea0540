import EtlFlow.Yaml.Document
import EtlFlow.Proofs.Outcome
import Mathlib.Data.List.Forall2
/-!
# Equality of YAML values

The mappings of a document have no key twice (`WellFormed`, `wellFormed_of_parse`).  Among such values
`same` is an equivalence (`WellFormed.same_self`, `WellFormed.same_trans`, `WellFormed.same_symm`):
that mappings of one size with the same entries in any order are the same from both sides takes that
no key comes twice.
-/

namespace EtlFlow

/-! ### Partners -/

/-- Where elements of one list have partners in another of the same length, and no two of them the same
partner, all elements of the other are partners. -/
theorem exists_partner {α β : Type} {r : α → β → Prop} {as : List α} {bs : List β}
    (hlength : as.length = bs.length)
    (hapart : as.Pairwise fun a a' => ∀ b ∈ bs, r a b → ¬ r a' b)
    (h : ∀ a ∈ as, ∃ b ∈ bs, r a b) : ∀ b ∈ bs, ∃ a ∈ as, r a b := by
  induction as generalizing bs with
  | nil =>
      rw [List.eq_nil_of_length_eq_zero hlength.symm]
      exact fun b hb => absurd hb List.not_mem_nil
  | cons a as ih =>
      rw [List.pairwise_cons] at hapart
      obtain ⟨b, hb, hab⟩ := h a List.mem_cons_self
      obtain ⟨front, back, rfl⟩ := List.append_of_mem hb
      have hrest : front ++ back ⊆ front ++ b :: back := by simp
      have hothers : ∀ c ∈ front ++ back, ∃ a' ∈ as, r a' c := by
        refine ih ?_ ?_ ?_
        · simp at hlength ⊢
          omega
        · exact hapart.2.imp fun hx c hc => hx c (hrest hc)
        · intro a' ha'
          obtain ⟨c, hc, hac⟩ := h a' (List.mem_cons_of_mem a ha')
          have hne : c ≠ b := by
            rintro rfl
            exact hapart.1 a' ha' c hb hab hac
          exact ⟨c, by simpa [hne] using hc, hac⟩
      intro c hc
      by_cases hcb : c = b
      · exact ⟨a, List.mem_cons_self, hcb ▸ hab⟩
      · obtain ⟨a', ha', hac⟩ := hothers c (by simpa [hcb] using hc)
        exact ⟨a', List.mem_cons_of_mem a ha', hac⟩

theorem forall₂_trans {α β γ : Type} {r : α → β → Prop} {s : β → γ → Prop} {t : α → γ → Prop}
    {as : List α} {bs : List β} {cs : List γ} (h : ∀ a ∈ as, ∀ b c, r a b → s b c → t a c)
    (hr : List.Forall₂ r as bs) (hs : List.Forall₂ s bs cs) : List.Forall₂ t as cs := by
  induction hr generalizing cs with
  | nil =>
      cases hs
      exact .nil
  | cons hab _ ih =>
      cases hs with
      | cons hbc hs =>
          exact .cons (h _ List.mem_cons_self _ _ hab hbc)
            (ih (fun a ha => h a (List.mem_cons_of_mem _ ha)) hs)

theorem forall₂_symm {α β : Type} {r : α → β → Prop} {s : β → α → Prop} {as : List α} {bs : List β}
    (h : ∀ a ∈ as, ∀ b ∈ bs, r a b → s b a) (hr : List.Forall₂ r as bs) : List.Forall₂ s bs as := by
  induction hr with
  | nil => exact .nil
  | cons hab _ ih =>
      refine .cons (h _ List.mem_cons_self _ List.mem_cons_self hab) (ih fun a ha b hb => ?_)
      exact h a (List.mem_cons_of_mem _ ha) b (List.mem_cons_of_mem _ hb)

namespace Number.Real64

theorem same_self (x : Real64) : x.same x := by
  cases x <;> simp [same]

theorem same_trans {x y z : Real64} (hxy : x.same y) (hyz : y.same z) : x.same z := by
  cases x <;> cases y <;> cases z <;> simp_all [same]
  grind

theorem same_comm (x y : Real64) : x.same y = y.same x := by
  cases x <;> cases y <;> simp [same]
  all_goals grind

end Number.Real64

namespace Yaml.Value

open Outcome (bind_eq_ok_iff guard_eq_ok_iff pure_eq_ok_iff)

variable {u v w : Value} {entries before : Entries}

/-- No mapping in the value has a key twice. -/
inductive WellFormed : Value → Prop
  | null : WellFormed .null
  | bool (b : Bool) : WellFormed (.bool b)
  | int (n : Int) : WellFormed (.int n)
  | float (x : Number.Real64) : WellFormed (.float x)
  | string (s : String) : WellFormed (.string s)
  | sequence {items : List Value} (hitems : ∀ v ∈ items, WellFormed v) :
      WellFormed (.sequence items)
  | mapping {entries : Entries} (hapart : entries.Pairwise fun e f => same e.1 f.1 = false)
      (hkeys : ∀ e ∈ entries, WellFormed e.1) (hvalues : ∀ e ∈ entries, WellFormed e.2) :
      WellFormed (.mapping entries)
  | tagged {tag : String} {v : Value} (hvalue : WellFormed v) : WellFormed (.tagged tag v)

/-! ### What is the same as a value -/

theorem sameItems_iff {us vs : List Value} :
    sameItems us vs ↔ List.Forall₂ (fun u v => same u v) us vs := by
  induction us generalizing vs with
  | nil => cases vs <;> simp [sameItems]
  | cons u us ih => cases vs <;> simp [sameItems, ih]

theorem sameEntries_iff {es fs : Entries} :
    sameEntries es fs ↔ ∀ e ∈ es, ∃ f ∈ fs, same e.1 f.1 ∧ same e.2 f.2 := by
  induction es with
  | nil => simp [sameEntries]
  | cons e es ih => simp [sameEntries, ih]

theorem same_iff : same u v ↔ match u with
    | .null => v = .null
    | .bool b => v = .bool b
    | .int n => v = .int n
    | .float x => ∃ y, v = .float y ∧ x.same y
    | .string s => v = .string s
    | .sequence us => ∃ vs, v = .sequence vs ∧ List.Forall₂ (fun u v => same u v) us vs
    | .mapping es => ∃ fs, v = .mapping fs ∧ es.length = fs.length ∧
        ∀ e ∈ es, ∃ f ∈ fs, same e.1 f.1 ∧ same e.2 f.2
    | .tagged tag u => ∃ w, v = .tagged tag w ∧ same u w := by
  cases u with
  | null => cases v <;> simp [same]
  | bool b =>
      cases v with
      | bool => simpa [same] using eq_comm
      | _ => simp [same]
  | int n =>
      cases v with
      | int => simpa [same] using eq_comm
      | _ => simp [same]
  | float x => cases v <;> simp [same]
  | string s =>
      cases v with
      | string => simpa [same] using eq_comm
      | _ => simp [same]
  | sequence us => cases v <;> simp [same, sameItems_iff]
  | mapping es => cases v <;> simp [same, sameEntries_iff]
  | tagged tag u =>
      cases v with
      | tagged t w =>
          simp only [same, Bool.and_eq_true, beq_iff_eq, tagged.injEq]
          exact ⟨fun h => ⟨w, ⟨h.1.symm, rfl⟩, h.2⟩, fun ⟨_, ⟨ht, hw⟩, h⟩ => ⟨ht.symm, hw ▸ h⟩⟩
      | _ => simp [same]

theorem same_null_iff : same .null v ↔ v = .null := same_iff

theorem same_bool_iff {b : Bool} : same (.bool b) v ↔ v = .bool b := same_iff

theorem same_int_iff {n : Int} : same (.int n) v ↔ v = .int n := same_iff

theorem same_float_iff {x : Number.Real64} : same (.float x) v ↔ ∃ y, v = .float y ∧ x.same y :=
  same_iff

theorem same_string_iff {s : String} : same (.string s) v ↔ v = .string s := same_iff

theorem same_sequence_iff {us : List Value} :
    same (.sequence us) v ↔ ∃ vs, v = .sequence vs ∧ List.Forall₂ (fun u v => same u v) us vs :=
  same_iff

theorem same_mapping_iff {es : Entries} : same (.mapping es) v ↔
    ∃ fs, v = .mapping fs ∧ es.length = fs.length ∧
      ∀ e ∈ es, ∃ f ∈ fs, same e.1 f.1 ∧ same e.2 f.2 :=
  same_iff

theorem same_tagged_iff {tag : String} :
    same (.tagged tag u) v ↔ ∃ w, v = .tagged tag w ∧ same u w :=
  same_iff

/-! ### An equivalence -/

theorem WellFormed.same_self (h : v.WellFormed) : same v v := by
  induction h with
  | null => rfl
  | bool b => exact same_bool_iff.mpr rfl
  | int n => exact same_int_iff.mpr rfl
  | float x => exact same_float_iff.mpr ⟨x, rfl, x.same_self⟩
  | string s => exact same_string_iff.mpr rfl
  | sequence _ ih => exact same_sequence_iff.mpr ⟨_, rfl, List.forall₂_same.mpr ih⟩
  | mapping _ _ _ hkeys hvalues =>
      exact same_mapping_iff.mpr ⟨_, rfl, rfl, fun e he => ⟨e, he, hkeys e he, hvalues e he⟩⟩
  | tagged _ ih => exact same_tagged_iff.mpr ⟨_, rfl, ih⟩

theorem WellFormed.same_trans (h : u.WellFormed) (huv : same u v) (hvw : same v w) : same u w := by
  induction h generalizing v w with
  | null => rwa [← same_null_iff.mp huv]
  | bool b => rwa [← same_bool_iff.mp huv]
  | int n => rwa [← same_int_iff.mp huv]
  | string s => rwa [← same_string_iff.mp huv]
  | float x =>
      obtain ⟨y, rfl, hxy⟩ := same_float_iff.mp huv
      obtain ⟨z, rfl, hyz⟩ := same_float_iff.mp hvw
      exact same_float_iff.mpr ⟨z, rfl, Number.Real64.same_trans hxy hyz⟩
  | sequence _ ih =>
      obtain ⟨vs, rfl, hvs⟩ := same_sequence_iff.mp huv
      obtain ⟨ws, rfl, hws⟩ := same_sequence_iff.mp hvw
      refine same_sequence_iff.mpr ⟨ws, rfl, forall₂_trans ?_ hvs hws⟩
      exact fun u hu _ _ huv hvw => ih u hu huv hvw
  | mapping _ _ _ hkeys hvalues =>
      obtain ⟨fs, rfl, hfs, hef⟩ := same_mapping_iff.mp huv
      obtain ⟨gs, rfl, hgs, hfg⟩ := same_mapping_iff.mp hvw
      refine same_mapping_iff.mpr ⟨gs, rfl, hfs.trans hgs, fun e he => ?_⟩
      obtain ⟨f, hf, hkey, hvalue⟩ := hef e he
      obtain ⟨g, hg, hkey', hvalue'⟩ := hfg f hf
      exact ⟨g, hg, hkeys e he hkey hkey', hvalues e he hvalue hvalue'⟩
  | tagged _ ih =>
      obtain ⟨v, rfl, hv⟩ := same_tagged_iff.mp huv
      obtain ⟨w, rfl, hw⟩ := same_tagged_iff.mp hvw
      exact same_tagged_iff.mpr ⟨w, rfl, ih hv hw⟩

theorem WellFormed.same_symm (hu : u.WellFormed) (hv : v.WellFormed) (h : same u v) : same v u := by
  induction hu generalizing v with
  | null =>
      rw [same_null_iff.mp h]
      exact WellFormed.null.same_self
  | bool b =>
      rw [same_bool_iff.mp h]
      exact (WellFormed.bool b).same_self
  | int n =>
      rw [same_int_iff.mp h]
      exact (WellFormed.int n).same_self
  | string s =>
      rw [same_string_iff.mp h]
      exact (WellFormed.string s).same_self
  | float x =>
      obtain ⟨y, rfl, hxy⟩ := same_float_iff.mp h
      exact same_float_iff.mpr ⟨x, rfl, (y.same_comm x).trans hxy⟩
  | sequence _ ih =>
      obtain ⟨vs, rfl, hvs⟩ := same_sequence_iff.mp h
      cases hv with
      | sequence hitems =>
          exact same_sequence_iff.mpr
            ⟨_, rfl, forall₂_symm (fun u hu v hv => ih u hu (hitems v hv)) hvs⟩
  | @mapping es hapart hwf _ hkeys hvalues =>
      obtain ⟨fs, rfl, hlength, hef⟩ := same_mapping_iff.mp h
      cases hv with
      | mapping _ hkeysv hvaluesv =>
          -- Two keys with one partner would be the same, and no key comes twice.
          have hpartner : ∀ f ∈ fs, ∃ e ∈ es, same e.1 f.1 ∧ same e.2 f.2 := by
            refine exists_partner hlength (hapart.imp_of_mem ?_) hef
            intro e e' he he' hne f hf hkey hkey'
            have hsame := (hwf e he).same_trans hkey.1 (hkeys e' he' (hkeysv f hf) hkey'.1)
            rw [hne] at hsame
            cases hsame
          refine same_mapping_iff.mpr ⟨es, rfl, hlength.symm, fun f hf => ?_⟩
          obtain ⟨e, he, hkey, hvalue⟩ := hpartner f hf
          exact ⟨e, he, hkeys e he (hkeysv f hf) hkey, hvalues e he (hvaluesv f hf) hvalue⟩
  | tagged _ ih =>
      obtain ⟨w, rfl, hw⟩ := same_tagged_iff.mp h
      cases hv with
      | tagged hwell => exact same_tagged_iff.mpr ⟨_, rfl, ih hwell hw⟩

/-! ### Documents -/

theorem wellFormed_of_resolve? {text : String} (h : Scalar.resolve? text = some v) :
    v.WellFormed := by
  have hreal (fraction : Option Number.Real64) :
      ((fraction.map Value.float).getD (.string text)).WellFormed := by
    cases fraction with
    | none => exact .string text
    | some x => exact .float x
  unfold Scalar.resolve? at h
  dsimp only at h
  split at h
  · cases h
    exact .null
  · split at h
    · cases h
      exact .bool _
    · split at h
      · split at h
        · cases h
          exact .int _
        · split at h
          · cases h
          · cases h
            exact hreal _
      · cases h
        exact hreal _

theorem wellFormed_of_plainValue {text : String} (h : plainValue text = .ok v) : v.WellFormed := by
  unfold plainValue at h
  split at h
  · next hv =>
      cases h
      exact wellFormed_of_resolve? hv
  · cases h

theorem wellFormed_of_coreValue {tag text : String} (h : coreValue tag text = .ok v) :
    v.WellFormed := by
  unfold coreValue at h
  repeat' split at h
  all_goals cases h
  · exact .bool _
  · exact .int _
  · exact .float _
  · exact .null
  · exact .string _

theorem wellFormed_of_underTag {tag : Option String} (hv : v.WellFormed)
    (h : underTag tag v = .ok w) : w.WellFormed := by
  unfold underTag at h
  split at h
  · cases h
  · cases h
    split
    · exact .tagged hv
    · exact hv
  · cases h
    exact hv

theorem wellFormed_of_scalarValue {text : String} {plain : Bool} {tag : Option String}
    (h : scalarValue text plain tag = .ok v) : v.WellFormed := by
  unfold scalarValue at h
  split at h
  · exact wellFormed_of_coreValue h
  · unfold ownValue at h
    split at h
    · obtain ⟨w, hw, htag⟩ := bind_eq_ok_iff.mp h
      exact wellFormed_of_underTag (wellFormed_of_plainValue hw) htag
    · exact wellFormed_of_underTag (.string text) h

theorem get?_eq_none_iff : get? u entries = none ↔ ∀ e ∈ entries, same e.1 u = false := by
  induction entries with
  | nil => simp [get?]
  | cons e es ih =>
      rw [get?, List.forall_mem_cons]
      cases same e.1 u <;> simp [ih]

/-- A key that has not come before can follow. -/
theorem WellFormed.concat (h : (Value.mapping before).WellFormed) (hkey : u.WellFormed)
    (hvalue : v.WellFormed) (hnew : get? u before = none) :
    (Value.mapping (before ++ [(u, v)])).WellFormed := by
  cases h with
  | mapping hapart hkeys hvalues =>
      refine .mapping ?_ ?_ ?_
      · rw [List.pairwise_append]
        refine ⟨hapart, List.pairwise_singleton _ _, fun e he f hf => ?_⟩
        rw [List.mem_singleton.mp hf]
        exact get?_eq_none_iff.mp hnew e he
      · simpa [or_imp, forall_and, hkey] using hkeys
      · simpa [or_imp, forall_and, hvalue] using hvalues

mutual

theorem wellFormed_of_ofNode (n : Node) {v : Value} (h : ofNode n = .ok v) : v.WellFormed := by
  cases n with
  | scalar text plain tag => exact wellFormed_of_scalarValue (by rwa [ofNode] at h)
  | sequence items tag =>
      rw [ofNode, bind_eq_ok_iff] at h
      obtain ⟨vs, hvs, h⟩ := h
      exact wellFormed_of_underTag (.sequence (wellFormed_of_ofItems items hvs)) h
  | mapping entries tag =>
      rw [ofNode, bind_eq_ok_iff] at h
      obtain ⟨es, hes, h⟩ := h
      have hempty : (Value.mapping []).WellFormed := .mapping .nil (by simp) (by simp)
      exact wellFormed_of_underTag (wellFormed_of_ofEntries entries hempty hes) h

theorem wellFormed_of_ofItems (ns : List Node) {vs : List Value} (h : ofItems ns = .ok vs) :
    ∀ v ∈ vs, v.WellFormed := by
  cases ns with
  | nil =>
      cases h
      exact fun v hv => absurd hv List.not_mem_nil
  | cons n ns =>
      simp only [ofItems, bind_eq_ok_iff, pure_eq_ok_iff] at h
      obtain ⟨v, hv, vs, hvs, rfl⟩ := h
      exact List.forall_mem_cons.mpr ⟨wellFormed_of_ofNode n hv, wellFormed_of_ofItems ns hvs⟩

theorem wellFormed_of_ofEntries (nodes : List (Node × Node)) {before entries : Entries}
    (hbefore : (Value.mapping before).WellFormed) (h : ofEntries before nodes = .ok entries) :
    (Value.mapping entries).WellFormed := by
  cases nodes with
  | nil =>
      cases h
      exact hbefore
  | cons node nodes =>
      obtain ⟨k, v⟩ := node
      simp only [ofEntries, bind_eq_ok_iff, guard_eq_ok_iff] at h
      obtain ⟨key, hkey, hnew, value, hvalue, h⟩ := h
      refine wellFormed_of_ofEntries nodes (hbefore.concat (wellFormed_of_ofNode k hkey)
        (wellFormed_of_ofNode v hvalue) ?_) h
      simpa using hnew

end

theorem wellFormed_of_parse {text : String} (h : parse text = .ok v) : v.WellFormed := by
  rw [parse, bind_eq_ok_iff] at h
  obtain ⟨node, -, h⟩ := h
  split at h
  · cases h
    exact .null
  · exact wellFormed_of_ofNode _ h

end Yaml.Value

end EtlFlow
