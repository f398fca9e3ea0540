import EtlFlow.Files.Tree
import EtlFlow.Proofs.Storage.Location
import Mathlib.Data.List.Nodup
/-!
# Places in a file tree

`Tree.filesBelow` lists the files below a place in the order of their names: `Tree.placeLE` compares
places name by name, and is total and transitive.  Each file below the place is there once
(`perm_placesBelow`), in that order (`pairwise_placesBelow`).

Only the parts of a path between its slashes matter for where it leads (`Path.walk`), so a path that is
joined to a directory leads on from there (`Tree.placeOf_join`).  A walk that never climbs above its
start ends where its depth says (`foldl_next_of_depth?`); it ends strictly below every start exactly
when it never climbs above it and its depth is not zero (`staysBelow_iff`).
-/

namespace EtlFlow.Files.Tree

theorem placeLE_total (a b : Place) : (placeLE a b || placeLE b a) = true := by
  induction a generalizing b with
  | nil => rfl
  | cons m a ih =>
    cases b with
    | nil => rfl
    | cons n b =>
      rw [placeLE, placeLE]
      by_cases h : m = n
      · rw [if_pos h, if_pos h.symm]
        exact ih b
      · rw [if_neg h, if_neg (Ne.symm h), Bool.or_eq_true, decide_eq_true_eq, decide_eq_true_eq]
        by_contra none
        rw [not_or, String.not_lt, String.not_lt] at none
        exact h (String.le_antisymm none.2 none.1)

theorem placeLE_trans (a b c : Place) (hab : placeLE a b = true) (hbc : placeLE b c = true) :
    placeLE a c = true := by
  induction a generalizing b c with
  | nil => rfl
  | cons l a ih =>
    cases b with
    | nil => cases hab
    | cons m b =>
      cases c with
      | nil => cases hbc
      | cons n c =>
        rw [placeLE] at hab hbc ⊢
        split at hab
        · rename_i hlm
          subst hlm
          split at hbc
          · rename_i hln
            rw [if_pos hln]
            exact ih b c hab hbc
          · rename_i hln
            rwa [if_neg hln]
        · have hlm := of_decide_eq_true hab
          split at hbc
          · rename_i hmn
            subst hmn
            rwa [if_neg (by assumption)]
          · have hln := String.lt_trans hlm (of_decide_eq_true hbc)
            have hne : l ≠ n := fun h => String.lt_irrefl n (h ▸ hln)
            rw [if_neg hne]
            exact decide_eq_true hln

/-- A file stands at or below the place. -/
def isBelow (place : Place) : Place × Entry → Bool
  | (p, .file _) => place.isPrefixOf p
  | (_, .directory) => false

/-- The places of the files below a place, seen from there. -/
def placesBelow (t : Tree) (place : Place) : List Place := (t.filesBelow place).map (·.1)

theorem pairwise_placesBelow (t : Tree) (place : Place) :
    (t.placesBelow place).Pairwise fun a b => placeLE a b = true :=
  List.pairwise_map.mpr (List.pairwise_mergeSort (fun a b c => placeLE_trans a.1 b.1 c.1)
    (fun a b => placeLE_total a.1 b.1) _)

/-- Every file below the place is listed once. -/
theorem perm_placesBelow (t : Tree) (place : Place) : (t.placesBelow place).Perm
    ((t.entries.filter (isBelow place)).map (·.1.drop place.length)) := by
  refine ((List.mergeSort_perm _ _).map _).trans (.of_eq ?_)
  rw [List.map_filterMap, ← List.filterMap_eq_map, List.filterMap_filter]
  refine congrArg (List.filterMap · t.entries) (funext fun e => ?_)
  obtain ⟨p, content | _⟩ := e
  · by_cases h : place.isPrefixOf p = true
    · simp [isBelow, -List.isPrefixOf_iff_prefix, h]
    · simp [isBelow, -List.isPrefixOf_iff_prefix, h]
  · rfl

/-! ### Plain trees -/

/-- Every part of a place is a name, and every place is there once. -/
structure IsPlain (t : Tree) : Prop where
  names : ∀ e ∈ t.entries, ∀ n ∈ e.1, Storage.IsName n
  nodup : (t.entries.map (·.1)).Nodup

theorem append_drop_of_isBelow {place : Place} {e : Place × Entry} (h : isBelow place e = true) :
    place ++ e.1.drop place.length = e.1 := by
  obtain ⟨p, content | _⟩ := e
  · exact List.prefix_iff_eq_append.mp (List.isPrefixOf_iff_prefix.mp h)
  · cases h

theorem IsPlain.isName_below {t : Tree} (ht : t.IsPlain) (place : Place) :
    ∀ below ∈ t.placesBelow place, ∀ n ∈ below, Storage.IsName n := by
  intro below hb n hn
  obtain ⟨e, he, rfl⟩ := List.mem_map.mp ((t.perm_placesBelow place).mem_iff.mp hb)
  exact ht.names e (List.mem_filter.mp he).1 n (List.mem_of_mem_drop hn)

theorem IsPlain.nodup_placesBelow {t : Tree} (ht : t.IsPlain) (place : Place) :
    (t.placesBelow place).Nodup := by
  rw [(t.perm_placesBelow place).nodup_iff]
  have places : ((t.entries.filter (isBelow place)).map (·.1.drop place.length)).map (place ++ ·) =
      (t.entries.filter (isBelow place)).map (·.1) := by
    rw [List.map_map]
    exact List.map_congr_left fun e he => append_drop_of_isBelow (List.mem_filter.mp he).2
  refine List.Nodup.of_map (place ++ ·) ?_
  rw [places]
  exact ht.nodup.sublist (List.filter_sublist.map _)

end EtlFlow.Files.Tree

namespace EtlFlow.Files

open Storage (IsName)
open Files.Tree (next)

/-! ### The parts of a path -/

/-- The parts of a text between slashes, none of them empty. -/
def partsBetween (s : List Char) : List (List Char) := (s.splitOn '/').filter (· ≠ [])

theorem partsBetween_append_slash (s t : List Char) :
    partsBetween (s ++ '/' :: t) = partsBetween s ++ partsBetween t := by
  rw [partsBetween, List.splitOn_eq_splitOnP,
    List.splitOnP_append_cons (p := (· == '/')) s t (beq_self_eq_true '/'), List.filter_append]
  rfl

theorem partsBetween_slash (s : List Char) : partsBetween ('/' :: s) = partsBetween s :=
  partsBetween_append_slash [] s

theorem partsBetween_dropWhile (s : List Char) :
    partsBetween (s.dropWhile (· == '/')) = partsBetween s := by
  induction s with
  | nil => rfl
  | cons c s ih =>
    rw [List.dropWhile_cons]
    split
    · rename_i hc
      rw [ih, beq_iff_eq.mp hc, partsBetween_slash]
    · rfl

theorem partsBetween_rdropWhile (s : List Char) :
    partsBetween (s.rdropWhile (· == '/')) = partsBetween s := by
  induction s using List.reverseRecOn with
  | nil => rfl
  | append_singleton s c ih =>
    by_cases hc : (c == '/') = true
    · rw [List.rdropWhile_concat_pos (· == '/') s c hc, ih, beq_iff_eq.mp hc,
        partsBetween_append_slash]
      exact (List.append_nil _).symm
    · rw [List.rdropWhile_concat_neg (· == '/') s c hc]

theorem partsBetween_name {s : List Char} (hne : s ≠ []) (hs : '/' ∉ s) : partsBetween s = [s] := by
  have plain : ∀ c ∈ s, (c == '/') = false := by
    intro c hc
    rw [beq_eq_false_iff_ne]
    rintro rfl
    exact hs hc
  rw [partsBetween, List.splitOn_eq_splitOnP, List.splitOnP_eq_singleton plain]
  simp [hne]

namespace Path

/-- The steps of a path, without the one that a slash at the end stands for. -/
def walk (path : String) : List Step :=
  (partsBetween path.toList).map fun part => Step.ofPart (String.ofList part)

theorem steps_eq (path : String) :
    steps path = walk path ++ if path.toList.getLast? = some '/' then [.here] else [] := by
  have parts : (Text.splitAt '/' path).filter (· ≠ "") =
      (partsBetween path.toList).map String.ofList := by
    rw [Text.splitAt, partsBetween, List.filter_map]
    refine congrArg _ (List.filter_congr fun p _ => ?_)
    simp [String.ofList_eq_empty_iff]
  rw [steps, parts, List.map_map]
  rfl

theorem walk_append_slash (a b : String) : walk (a ++ "/" ++ b) = walk a ++ walk b := by
  rw [walk, Storage.toList_append_slash, partsBetween_append_slash, List.map_append]
  rfl

@[simp]
theorem walk_empty : walk "" = [] := rfl

/-- Slashes at the ends lead nowhere. -/
theorem walk_dropAround (s : String) : walk (Text.dropAround '/' s) = walk s := by
  rw [walk, Storage.toList_dropAround, partsBetween_rdropWhile, partsBetween_dropWhile]
  rfl

theorem walk_dropFront (s : String) : walk (Text.dropFront '/' s) = walk s := by
  rw [walk, Text.dropFront, String.toList_ofList, partsBetween_dropWhile]
  rfl

theorem walk_name {n : String} (hn : IsName n) : walk n = [Step.ofPart n] := by
  rw [walk, partsBetween_name (String.toList_eq_nil_iff.not.mpr hn.1) hn.2, List.map_singleton,
    String.ofList_toList]

/-- The path is a single name. -/
def IsSingle (path : String) : Prop := walk path = [.name path]

instance : DecidablePred IsSingle := fun path => inferInstanceAs (Decidable (walk path = _))

theorem walk_intercalate (names : List String) :
    walk ("/".intercalate names) = names.flatMap walk := by
  induction names with
  | nil => rfl
  | cons n names ih =>
    cases names with
    | nil => rw [String.intercalate_singleton, List.flatMap_singleton]
    | cons m names =>
      rw [String.intercalate_cons_cons, walk_append_slash, ih, List.flatMap_cons (x := n)]

end Path

/-! ### Where a path leads -/

theorem foldl_next_steps (path : String) (place : Place) :
    (Path.steps path).foldl next place = (Path.walk path).foldl next place := by
  rw [Path.steps_eq, List.foldl_append]
  split <;> rfl

namespace Tree

variable {t : Tree} {base path : String}

theorem placeOf_eq (t : Tree) (path : String) :
    t.placeOf path = (Path.walk path).foldl next (t.base path) := foldl_next_steps path _

/-- A relative path that is joined to a directory leads on from there. -/
theorem placeOf_join (t : Tree) (base : String) (hp : Path.isAbsolute path = false) :
    t.placeOf (Path.join base path) = (Path.walk path).foldl next (t.placeOf base) := by
  rw [placeOf_eq, placeOf_eq, ← List.foldl_append]
  unfold Path.join
  rw [hp]
  by_cases hb : base = ""
  · subst hb
    rw [if_pos (.inr rfl), Tree.base, hp]
    rfl
  rw [if_neg (not_or.mpr ⟨Bool.false_ne_true, hb⟩)]
  have hne : base.toList ≠ [] := String.toList_eq_nil_iff.not.mpr hb
  split
  · rename_i hlast
    obtain ⟨front, hfront⟩ := List.getLast?_eq_some_iff.mp hlast
    have start : t.base (base ++ path) = t.base base := by
      rw [Tree.base, Path.isAbsolute, String.toList_append, List.head?_append_of_ne_nil _ hne]
      rfl
    have walks : Path.walk (base ++ path) = Path.walk base ++ Path.walk path := by
      rw [Path.walk, Path.walk, String.toList_append, hfront, List.append_assoc,
        List.singleton_append, partsBetween_append_slash, partsBetween_append_slash, List.map_append]
      exact congrArg (· ++ Path.walk path) (by simp [partsBetween])
    rw [start, walks]
  · have start : t.base (base ++ "/" ++ path) = t.base base := by
      rw [Tree.base, Path.isAbsolute, String.toList_append, String.toList_append, List.append_assoc,
        List.head?_append_of_ne_nil _ hne]
      rfl
    rw [start, Path.walk_append_slash]

/-- The path leads to a place strictly below that of `root`. -/
def IsBelow (t : Tree) (root path : String) : Prop :=
  ∃ names, names ≠ [] ∧ t.placeOf path = t.placeOf root ++ names

end Tree

/-! ### Depth -/

/-- How far below its start a walk ends that goes on from `depth`, if it never climbs above the start.
-/
def depth? (depth : Nat) : List Step → Option Nat
  | [] => some depth
  | .here :: ss => depth? depth ss
  | .name _ :: ss => depth? (depth + 1) ss
  | .up :: ss => if depth = 0 then none else depth? (depth - 1) ss

/-- The walk never climbs above its start, and ends strictly below it. -/
def StaysBelow (ss : List Step) : Prop := ∃ d, depth? 0 ss = some (d + 1)

instance (ss : List Step) : Decidable (StaysBelow ss) :=
  decidable_of_iff ((depth? 0 ss).any (· ≠ 0)) (by
    rw [StaysBelow]
    cases depth? 0 ss with
    | none => simp
    | some d => cases d <;> simp)

variable {ss : List Step} {d : Nat} {names base : Place} {r : String}

theorem foldl_next_of_depth? (h : depth? names.length ss = some d) :
    ∃ names', names'.length = d ∧ ∀ base, ss.foldl next (base ++ names) = base ++ names' := by
  induction ss generalizing names with
  | nil =>
    cases h
    exact ⟨names, rfl, fun _ => rfl⟩
  | cons s ss ih =>
    cases s with
    | here => exact ih h
    | name n =>
      obtain ⟨names', hd, walks⟩ := @ih (names ++ [n]) (by rwa [List.length_append])
      refine ⟨names', hd, fun base => ?_⟩
      rw [← walks, ← List.append_assoc]
      rfl
    | up =>
      obtain rfl | ⟨front, n, rfl⟩ := names.eq_nil_or_concat
      · cases h
      · rw [List.concat_eq_append, List.length_append] at h
        obtain ⟨names', hd, walks⟩ := @ih front h
        refine ⟨names', hd, fun base => ?_⟩
        rw [← walks, List.concat_eq_append, ← List.append_assoc]
        exact congrArg (ss.foldl next) List.dropLast_concat

/-- A walk leads nowhere below a directory that it does not name, once it is not below it. -/
theorem not_prefix_foldl_next (hr : .name r ∉ ss) {place : Place} (h : ¬base ++ [r] <+: place) :
    ¬base ++ [r] <+: ss.foldl next place := by
  induction ss generalizing place with
  | nil => exact h
  | cons s ss ih =>
    rw [List.mem_cons, not_or] at hr
    refine ih hr.2 ?_
    cases s with
    | here => exact h
    | up => exact fun hp => h (hp.trans (List.dropLast_prefix place))
    | name n =>
      intro hp
      rcases List.prefix_concat_iff.mp hp with heq | hp
      · have last := (List.append_inj' heq rfl).2
        exact hr.1 (by rw [List.singleton_inj.mp last])
      · exact h hp

/-- A walk that climbs above its start leads out of a directory that it does not name. -/
theorem not_prefix_of_depth? (hr : .name r ∉ ss) (h : depth? names.length ss = none) (base : Place) :
    ¬base ++ [r] <+: ss.foldl next (base ++ [r] ++ names) := by
  induction ss generalizing names with
  | nil => cases h
  | cons s ss ih =>
    have hr' := (not_or.mp (List.mem_cons.not.mp hr)).2
    cases s with
    | here => exact ih hr' h
    | name n =>
      have further := @ih (names ++ [n]) hr' (by rwa [List.length_append])
      rwa [← List.append_assoc] at further
    | up =>
      obtain rfl | ⟨front, n, rfl⟩ := names.eq_nil_or_concat
      · refine not_prefix_foldl_next hr' fun hp => ?_
        have shorter := hp.length_le
        rw [List.append_nil, next, List.dropLast_concat, List.length_append,
          List.length_singleton] at shorter
        omega
      · rw [List.concat_eq_append, List.length_append] at h
        have further := @ih front hr' h
        rw [List.concat_eq_append, ← List.append_assoc]
        refine fun hp => further ?_
        rwa [List.foldl_cons, next, List.dropLast_concat] at hp

example : StaysBelow (Path.walk "src/./../run.sh") ∧ ¬StaysBelow (Path.walk "src/../../src/run.sh") := by
  decide

/-- There is always a name that a walk does not use. -/
theorem exists_name_not_mem (ss : List Step) : ∃ r, Step.name r ∉ ss := by
  have bounded : ∃ k, ∀ n : String, .name n ∈ ss → n.length < k := by
    induction ss with
    | nil => exact ⟨0, nofun⟩
    | cons s ss ih =>
      obtain ⟨k, hk⟩ := ih
      cases s with
      | name m =>
        refine ⟨k + (m.length + 1), fun n hn => ?_⟩
        rcases List.mem_cons.mp hn with same | hn
        · cases same
          omega
        · exact (hk n hn).trans_le (Nat.le_add_right k _)
      | _ => exact ⟨k, fun n hn => hk n ((List.mem_cons.mp hn).resolve_left nofun)⟩
  obtain ⟨k, hk⟩ := bounded
  refine ⟨String.ofList (List.replicate k 'x'), fun hr => ?_⟩
  have shorter := hk _ hr
  rw [← String.length_toList, String.toList_ofList, List.length_replicate] at shorter
  exact absurd shorter (Nat.lt_irrefl k)

/-- The walks that stay below are those that lead strictly below every start. -/
theorem staysBelow_iff :
    StaysBelow ss ↔ ∀ base : Place, ∃ names, names ≠ [] ∧ ss.foldl next base = base ++ names := by
  constructor
  · rintro ⟨d, h⟩ base
    obtain ⟨names, hd, walks⟩ :=
      foldl_next_of_depth? (show depth? ([] : Place).length ss = some (d + 1) from h)
    refine ⟨names, ?_, by simpa using walks base⟩
    rintro rfl
    cases hd
  · intro h
    cases hdepth : depth? 0 ss with
    | none =>
      obtain ⟨r, hr⟩ := exists_name_not_mem ss
      obtain ⟨names, -, walks⟩ := h [r]
      have out :=
        not_prefix_of_depth? hr (show depth? ([] : Place).length ss = none from hdepth) []
      rw [List.nil_append, List.append_nil, walks] at out
      exact absurd (List.prefix_append _ _) out
    | some d =>
      obtain ⟨names, hne, walks⟩ := h []
      obtain ⟨names', hd, walks'⟩ :=
        foldl_next_of_depth? (show depth? ([] : Place).length ss = some d from hdepth)
      have same := (walks' []).symm.trans walks
      rw [List.nil_append, List.nil_append] at same
      subst same
      cases d with
      | zero => exact absurd (List.length_eq_zero_iff.mp hd) hne
      | succ d => exact ⟨d, hdepth⟩

theorem depth?_of_not_mem_up (hup : .up ∉ ss) (d : Nat) : ∃ d', depth? d ss = some d' ∧ d ≤ d' := by
  induction ss generalizing d with
  | nil => exact ⟨d, rfl, le_rfl⟩
  | cons s ss ih =>
    rw [List.mem_cons, not_or] at hup
    cases s with
    | here => exact ih hup.2 d
    | up => exact absurd rfl hup.1
    | name n =>
      obtain ⟨d', hd, le⟩ := ih hup.2 (d + 1)
      exact ⟨d', hd, (Nat.le_succ d).trans le⟩

/-- A walk that starts with a name and never goes up stays below. -/
theorem staysBelow_of_not_mem_up (n : String) (hup : .up ∉ ss) : StaysBelow (.name n :: ss) := by
  obtain ⟨d, hd, le⟩ := depth?_of_not_mem_up hup 1
  obtain ⟨d, rfl⟩ := Nat.exists_eq_add_of_le le
  exact ⟨d, hd.trans (by rw [Nat.add_comm])⟩

end EtlFlow.Files
