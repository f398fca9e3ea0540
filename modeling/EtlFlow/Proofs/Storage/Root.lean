import EtlFlow.Proofs.Files.Tree
import EtlFlow.Proofs.Storage.Location
import EtlFlow.Storage.Store
/-!
# Objects below a root directory

The local store finds an object by the steps of its bucket and of its key, from the root on
(`placeOf_localPath`).  So it keeps an object strictly below every root exactly when these steps stay
below their start (`forall_isBelow_iff`).  A key that is joined from names goes up only where one of
the names does (`ComposedOf`); without such names the object lies below (`ComposedOf.staysBelow`).
-/

namespace EtlFlow.Storage

open Files

namespace Location

variable {l : Location} {bucket key part : String}

/-! ### The steps to an object -/

/-- The steps from the root of a store to an object. -/
def walk (l : Location) : List Files.Step := Path.walk l.bucket ++ Path.walk l.key

theorem walk_keyBelow (l : Location) (part : String) :
    Path.walk (l.keyBelow part) = Path.walk l.key ++ Path.walk part := by
  rw [keyBelow]
  split
  · rename_i h
    rw [h, Path.walk_dropAround, Path.walk_empty, List.nil_append]
  · rw [Path.walk_append_slash, Path.walk_dropAround]

theorem walk_joinDirectory (l : Location) (part : String) :
    Path.walk (l.joinDirectory part).key = Path.walk l.key ++ Path.walk part :=
  (Path.walk_dropAround _).trans (walk_keyBelow l part)

theorem walk_joinFile (l : Location) (part : String) :
    Path.walk (l.joinFile part).key = Path.walk l.key ++ Path.walk part :=
  (Path.walk_dropFront _).trans (walk_keyBelow l part)

/-! ### Relative keys -/

theorem isAbsolute_of_head? {s : String} (h : s.toList.head? ≠ some '/') :
    Path.isAbsolute s = false := beq_eq_false_iff_ne.mpr h

/-- The key of a directory starts with no slash. -/
theorem isAbsolute_directory (bucket key : String) :
    Path.isAbsolute (directory bucket key).key = false :=
  isAbsolute_of_head? (isTrimmed_dropAround key).front

theorem isAbsolute_file (bucket key : String) : Path.isAbsolute (file bucket key).key = false := by
  refine isAbsolute_of_head? ?_
  rw [file, Text.dropFront, String.toList_ofList]
  exact head?_dropWhile_ne key.toList

theorem IsPlain.isAbsolute_bucket (h : l.IsPlain) : Path.isAbsolute l.bucket = false :=
  isAbsolute_of_head? h.bucket.isTrimmed.front

theorem IsPlain.isAbsolute_key (h : l.IsPlain) : Path.isAbsolute l.key = false :=
  isAbsolute_of_head? h.key.front

/-! ### Below the root -/

/-- Bucket and key lead on from the root. -/
theorem placeOf_localPath (t : Tree) (root : String) (hb : Path.isAbsolute l.bucket = false)
    (hk : Path.isAbsolute l.key = false) :
    t.placeOf (localPath root l) = l.walk.foldl Tree.next (t.placeOf root) := by
  rw [localPath, Tree.placeOf_join t _ hk, Tree.placeOf_join t _ hb, walk, List.foldl_append]

/-- The objects that lie strictly below every root are those with steps that stay below. -/
theorem forall_isBelow_iff (hb : Path.isAbsolute l.bucket = false)
    (hk : Path.isAbsolute l.key = false) :
    (∀ (t : Tree) root, t.IsBelow root (localPath root l)) ↔ StaysBelow l.walk := by
  rw [Files.staysBelow_iff]
  constructor
  · intro h base
    obtain ⟨names, hne, place⟩ := h { start := base } ""
    rw [placeOf_localPath _ _ hb hk] at place
    exact ⟨names, hne, place⟩
  · intro h t root
    obtain ⟨names, hne, place⟩ := h (t.placeOf root)
    exact ⟨names, hne, (placeOf_localPath t root hb hk).trans place⟩

/-! ### Keys made from names -/

/-- The part goes up only if one of the names does. -/
def UpBy (names : List String) (part : String) : Prop :=
  .up ∈ Path.walk part → ∃ n ∈ names, .up ∈ Path.walk n

/-- The location lies in the bucket, and its key goes up only if one of the names does. -/
structure ComposedOf (bucket : String) (names : List String) (l : Location) : Prop where
  bucket : l.bucket = bucket
  relative : Path.isAbsolute l.key = false
  up : UpBy names l.key

variable {names more : List String}

theorem upBy_of_mem (h : part ∈ names) : UpBy names part := fun up => ⟨part, h, up⟩

theorem upBy_of_isSingle (h : Path.IsSingle part) : UpBy names part := by
  intro up
  rw [h, List.mem_singleton] at up
  cases up

theorem UpBy.mono (h : UpBy names part) (sub : names ⊆ more) : UpBy more part := by
  intro up
  obtain ⟨n, hn, up⟩ := h up
  exact ⟨n, sub hn, up⟩

theorem composedOf_directory (h : UpBy names key) : ComposedOf bucket names (directory bucket key) where
  bucket := rfl
  relative := isAbsolute_directory bucket key
  up up := h (by rwa [directory, Path.walk_dropAround] at up)

theorem ComposedOf.joinDirectory (h : l.ComposedOf bucket names) (hp : UpBy names part) :
    (l.joinDirectory part).ComposedOf bucket names where
  bucket := (bucket_joinDirectory l part).trans h.bucket
  relative := isAbsolute_directory l.bucket (l.keyBelow part)
  up up := by
    rw [walk_joinDirectory, List.mem_append] at up
    exact up.elim h.up hp

theorem ComposedOf.joinFile (h : l.ComposedOf bucket names) (hp : UpBy names part) :
    (l.joinFile part).ComposedOf bucket names where
  bucket := h.bucket
  relative := isAbsolute_file l.bucket (l.keyBelow part)
  up up := by
    rw [walk_joinFile, List.mem_append] at up
    exact up.elim h.up hp

theorem ComposedOf.mono (h : l.ComposedOf bucket names) (sub : names ⊆ more) :
    l.ComposedOf bucket more := ⟨h.bucket, h.relative, h.up.mono sub⟩

/-- In a bucket of a single name, what is made from names that do not go up stays below. -/
theorem ComposedOf.staysBelow (h : l.ComposedOf bucket names) (hb : Path.IsSingle bucket)
    (hn : ∀ n ∈ names, .up ∉ Path.walk n) : StaysBelow l.walk := by
  rw [walk, h.bucket, hb]
  refine Files.staysBelow_of_not_mem_up bucket fun up => ?_
  obtain ⟨n, there, up⟩ := h.up up
  exact hn n there up

end Location

end EtlFlow.Storage
