import EtlFlow.Storage.Location
import Mathlib.Data.List.DropRight
import Mathlib.Tactic.Common
/-!
# Locations, their keys and their URIs

A directory whose key has no slash at its ends (`Location.IsHome`) puts what is named below it
behind its key and one slash.  Two directories below it are the same just where their names agree up
to slashes at the ends (`IsHome.key_joinDirectory_inj`), and a key with a name behind its last slash
tells the name and what stands before it (`append_name_inj`).  Names with slashes between them are
told by the text (`intercalate_inj`).

A location can be read again from its URI exactly when its bucket is a name, its key has no slash at
its ends, and it has a key unless it is a directory (`IsPlain`, `ofUri_uri_iff`).  Reading a URI and
the directories of a bucket give such locations, and joining keeps them, so every location that is
reached by names (`Named`) is told by its URI (`ofUri_uri_of_named`).
-/

namespace EtlFlow.Storage

/-! ### Names and trimmed texts -/

/-- A text that can stand between two slashes of a key. -/
def IsName (n : String) : Prop := n ≠ "" ∧ '/' ∉ n.toList

instance (n : String) : Decidable (IsName n) := inferInstanceAs (Decidable (_ ∧ _))

/-- No slash stands at the front or at the end of a text. -/
structure IsTrimmed (s : String) : Prop where
  front : s.toList.head? ≠ some '/'
  back : s.toList.getLast? ≠ some '/'

theorem IsName.isTrimmed {n : String} (h : IsName n) : IsTrimmed n where
  front hn := h.2 (List.mem_of_head? hn)
  back hn := h.2 (List.mem_of_getLast? hn)

theorem isTrimmed_empty : IsTrimmed "" := ⟨nofun, nofun⟩

theorem dropFront_eq_self {s : String} (h : s.toList.head? ≠ some '/') :
    Text.dropFront '/' s = s := by
  rw [Text.dropFront]
  cases hs : s.toList with
  | nil => rw [List.dropWhile_nil, ← hs, String.ofList_toList]
  | cons c cs =>
    rw [hs, List.head?_cons, ne_eq, Option.some.injEq] at h
    rw [List.dropWhile_cons_of_neg (by simpa using h), ← hs, String.ofList_toList]

theorem dropBack_eq_self {s : String} (h : s.toList.getLast? ≠ some '/') :
    Text.dropBack '/' s = s := by
  rw [Text.dropBack, ← List.rdropWhile, List.rdropWhile_eq_self_iff.mpr, String.ofList_toList]
  intro hs slash
  rw [List.getLast?_eq_some_getLast hs, beq_iff_eq.mp slash] at h
  exact h rfl

theorem IsTrimmed.dropAround {s : String} (h : IsTrimmed s) : Text.dropAround '/' s = s := by
  rw [Text.dropAround, dropFront_eq_self h.front, dropBack_eq_self h.back]

theorem head?_dropWhile_ne (s : List Char) : (s.dropWhile (· == '/')).head? ≠ some '/' := by
  intro h
  have := List.head?_dropWhile_not (· == '/') s
  rw [h] at this
  cases this

theorem toList_dropAround (s : String) : (Text.dropAround '/' s).toList =
    (s.toList.dropWhile (· == '/')).rdropWhile (· == '/') := by
  rw [Text.dropAround, Text.dropBack, Text.dropFront, String.toList_ofList, String.toList_ofList,
    List.rdropWhile]

/-- The text without its slashes at the ends has none there. -/
theorem isTrimmed_dropAround (s : String) : IsTrimmed (Text.dropAround '/' s) := by
  constructor
  · intro h
    rw [toList_dropAround] at h
    obtain ⟨c, r, hr⟩ := List.exists_cons_of_ne_nil (List.ne_nil_of_mem (List.mem_of_head? h))
    have start := List.rdropWhile_prefix (· == '/') (s.toList.dropWhile (· == '/'))
    obtain ⟨t, ht⟩ := start
    rw [hr] at h ht
    exact head?_dropWhile_ne s.toList (by rw [← ht]; exact h)
  · intro h
    rw [toList_dropAround] at h
    have ne := List.ne_nil_of_mem (List.mem_of_getLast? h)
    rw [List.getLast?_eq_some_getLast ne, Option.some.injEq] at h
    exact List.rdropWhile_last_not _ _ ne (beq_iff_eq.mpr h)

theorem toList_append_slash (s t : String) :
    (s ++ "/" ++ t).toList = s.toList ++ '/' :: t.toList := by
  rw [String.toList_append, String.toList_append, List.append_assoc]
  rfl

/-- Trimmed texts with one slash between them. -/
theorem IsTrimmed.append_slash {s t : String} (hs : IsTrimmed s) (ht : IsTrimmed t) (hs' : s ≠ "")
    (ht' : t ≠ "") : IsTrimmed (s ++ "/" ++ t) := by
  rw [ne_eq, ← String.toList_eq_nil_iff] at hs' ht'
  constructor
  · rw [toList_append_slash, List.head?_append_of_ne_nil _ hs']
    exact hs.front
  · rw [toList_append_slash, List.getLast?_append_of_ne_nil _ (List.cons_ne_nil _ _),
      List.getLast?_cons_of_ne_nil ht']
    exact ht.back

theorem IsTrimmed.dropAround_slash {s : String} (h : IsTrimmed s) (hs : s ≠ "") :
    Text.dropAround '/' (s ++ "/" ++ "") = s := by
  have front : Text.dropFront '/' (s ++ "/" ++ "") = s ++ "/" ++ "" := by
    refine dropFront_eq_self ?_
    rw [toList_append_slash, List.head?_append_of_ne_nil _ (String.toList_eq_nil_iff.not.mpr hs)]
    exact h.front
  have back := dropBack_eq_self h.back
  rw [Text.dropBack] at back
  rw [Text.dropAround, front, Text.dropBack, toList_append_slash, List.reverse_append]
  exact back

/-! ### A name at a slash -/

/-- The text up to the first slash and the text behind it. -/
theorem append_slash_inj {n m a b : List Char} (hn : '/' ∉ n) (hm : '/' ∉ m)
    (h : n ++ '/' :: a = m ++ '/' :: b) : n = m ∧ a = b := by
  induction n generalizing m with
  | nil =>
    cases m with
    | nil => exact ⟨rfl, (List.cons.inj h).2⟩
    | cons c m => exact absurd (List.mem_cons.mpr (.inl (List.cons.inj h).1)) hm
  | cons c n ih =>
    cases m with
    | nil => exact absurd (List.mem_cons.mpr (.inl (List.cons.inj h).1.symm)) hn
    | cons d m =>
      obtain ⟨rfl, rest⟩ := List.cons.inj h
      rw [List.mem_cons, not_or] at hn hm
      obtain ⟨rfl, rfl⟩ := ih hn.2 hm.2 rest
      exact ⟨rfl, rfl⟩

theorem name_append_inj {n m s t : String} (hn : IsName n) (hm : IsName m)
    (h : n ++ "/" ++ s = m ++ "/" ++ t) : n = m ∧ s = t := by
  rw [← String.toList_inj, toList_append_slash, toList_append_slash] at h
  obtain ⟨front, back⟩ := append_slash_inj hn.2 hm.2 h
  exact ⟨String.toList_inj.mp front, String.toList_inj.mp back⟩

theorem append_name_inj {n m s t : String} (hn : IsName n) (hm : IsName m)
    (h : s ++ "/" ++ n = t ++ "/" ++ m) : s = t ∧ n = m := by
  rw [← String.toList_inj, toList_append_slash, toList_append_slash, ← List.reverse_inj,
    List.reverse_append, List.reverse_append, List.reverse_cons, List.reverse_cons,
    List.append_assoc, List.append_assoc] at h
  obtain ⟨back, front⟩ := append_slash_inj (by simpa using hn.2) (by simpa using hm.2) h
  exact ⟨String.toList_inj.mp (List.reverse_inj.mp front),
    String.toList_inj.mp (List.reverse_inj.mp back)⟩

/-- A name holds no slash. -/
theorem IsName.ne_append {n s t : String} (hn : IsName n) : n ≠ s ++ "/" ++ t := by
  rintro rfl
  refine hn.2 ?_
  rw [toList_append_slash]
  exact List.mem_append_right _ List.mem_cons_self

/-! ### Names with slashes between them -/

theorem append_slash_ne_empty (s t : String) : s ++ "/" ++ t ≠ "" := by
  rw [ne_eq, ← String.toList_eq_nil_iff, toList_append_slash]
  simp

theorem intercalate_ne_empty {n : String} (hn : IsName n) (names : List String) :
    "/".intercalate (n :: names) ≠ "" := by
  cases names with
  | nil => rw [String.intercalate_singleton]; exact hn.1
  | cons m names => rw [String.intercalate_cons_cons]; exact append_slash_ne_empty _ _

theorem isTrimmed_intercalate {names : List String} (h : ∀ n ∈ names, IsName n) :
    IsTrimmed ("/".intercalate names) := by
  induction names with
  | nil => exact isTrimmed_empty
  | cons n names ih =>
    rw [List.forall_mem_cons] at h
    cases names with
    | nil => rw [String.intercalate_singleton]; exact h.1.isTrimmed
    | cons m names =>
      rw [String.intercalate_cons_cons]
      exact h.1.isTrimmed.append_slash (ih h.2) h.1.1
        (intercalate_ne_empty (h.2 m List.mem_cons_self) names)

theorem intercalate_inj {names others : List String} (hn : ∀ n ∈ names, IsName n)
    (ho : ∀ n ∈ others, IsName n) (h : "/".intercalate names = "/".intercalate others) :
    names = others := by
  induction names generalizing others with
  | nil =>
    cases others with
    | nil => rfl
    | cons m others => exact absurd h.symm (intercalate_ne_empty (ho m List.mem_cons_self) others)
  | cons n names ih =>
    cases others with
    | nil => exact absurd h (intercalate_ne_empty (hn n List.mem_cons_self) names)
    | cons m others =>
      rw [List.forall_mem_cons] at hn ho
      cases names with
      | nil =>
        cases others with
        | nil => rw [String.intercalate_singleton, String.intercalate_singleton] at h; rw [h]
        | cons m' others =>
          rw [String.intercalate_singleton, String.intercalate_cons_cons] at h
          exact absurd h hn.1.ne_append
      | cons n' names =>
        cases others with
        | nil =>
          rw [String.intercalate_singleton, String.intercalate_cons_cons] at h
          exact absurd h.symm ho.1.ne_append
        | cons m' others =>
          rw [String.intercalate_cons_cons, String.intercalate_cons_cons] at h
          obtain ⟨first, rest⟩ := name_append_inj hn.1 ho.1 h
          rw [first, ih hn.2 ho.2 rest]

/-! ### Below a directory -/

namespace Location

/-- The key of the location is that of a directory, and not the root of its bucket. -/
structure IsHome (l : Location) : Prop where
  ne : l.key ≠ ""
  trimmed : IsTrimmed l.key

/-- The key that stands for `part` below the key of a directory. -/
def keyUnder (key part : String) : String := if part = "" then key else key ++ "/" ++ part

variable {l : Location}

theorem IsHome.keyBelow (hl : l.IsHome) (part : String) :
    l.keyBelow part = l.key ++ "/" ++ Text.dropAround '/' part := by
  rw [Location.keyBelow, if_neg hl.ne]

theorem IsHome.joinDirectory_eq (hl : l.IsHome) (part : String) :
    l.joinDirectory part = ⟨l.bucket, keyUnder l.key (Text.dropAround '/' part), true⟩ := by
  rw [joinDirectory, directory, hl.keyBelow, keyUnder]
  split
  · rename_i h
    rw [h, hl.trimmed.dropAround_slash hl.ne]
  · rename_i h
    rw [(hl.trimmed.append_slash (isTrimmed_dropAround part) hl.ne h).dropAround]

theorem IsHome.joinFile_eq (hl : l.IsHome) (part : String) :
    l.joinFile part = ⟨l.bucket, l.key ++ "/" ++ Text.dropAround '/' part, false⟩ := by
  rw [joinFile, file, hl.keyBelow, dropFront_eq_self]
  rw [toList_append_slash, List.head?_append_of_ne_nil _ (String.toList_eq_nil_iff.not.mpr hl.ne)]
  exact hl.trimmed.front

theorem bucket_joinDirectory (l : Location) (part : String) :
    (l.joinDirectory part).bucket = l.bucket := by
  rw [Location.joinDirectory, directory]

theorem IsHome.joinDirectory (hl : l.IsHome) (part : String) : (l.joinDirectory part).IsHome := by
  rw [hl.joinDirectory_eq, keyUnder]
  split
  · exact ⟨hl.ne, hl.trimmed⟩
  · rename_i h
    exact ⟨append_slash_ne_empty _ _,
      hl.trimmed.append_slash (isTrimmed_dropAround part) hl.ne h⟩

theorem keyUnder_inj {key part other : String} :
    keyUnder key part = keyUnder key other ↔ part = other := by
  have longer (s : String) : key ≠ key ++ "/" ++ s := by
    intro h
    have := congrArg (List.length ∘ String.toList) h
    simp at this
  refine ⟨fun h => ?_, congrArg _⟩
  unfold keyUnder at h
  split at h
  · rename_i hpart
    split at h
    · rename_i hother
      rw [hpart, hother]
    · exact absurd h (longer other)
  · split at h
    · exact absurd h.symm (longer part)
    · exact (String.append_right_inj _).mp h

/-- Two directories below one have the same key just where they are named the same up to slashes at
the ends. -/
theorem IsHome.key_joinDirectory_inj (hl : l.IsHome) {part other : String} :
    (l.joinDirectory part).key = (l.joinDirectory other).key ↔
      Text.dropAround '/' part = Text.dropAround '/' other := by
  simp only [hl.joinDirectory_eq, keyUnder_inj]

theorem uri_file (bucket key : String) :
    (⟨bucket, key, false⟩ : Location).uri = "s3://" ++ bucket ++ "/" ++ key := by
  simp [uri]

end Location

/-! ### Texts cut in front -/

theorem afterFront?_append (front s : String) : Text.afterFront? front (front ++ s) = some s := by
  rw [Text.afterFront?, String.toList_append, if_pos (List.isPrefixOf_iff_prefix.mpr
    (List.prefix_append _ _)), ← String.length_toList, List.drop_left, String.ofList_toList]

theorem splitFirst?_append_slash {n : String} (hn : '/' ∉ n.toList) (s : String) :
    Text.splitFirst? '/' (n ++ "/" ++ s) = some (n, s) := by
  have name : ∀ c ∈ n.toList, (c != '/') = true :=
    fun c hc => bne_iff_ne.mpr fun h => hn (h ▸ hc)
  rw [Text.splitFirst?, toList_append_slash, List.dropWhile_append_of_pos name,
    List.takeWhile_append_of_pos name, List.dropWhile_cons_of_neg (by decide),
    List.takeWhile_cons_of_neg (by decide), List.append_nil, String.ofList_toList]
  exact congrArg (fun t => some (n, t)) String.ofList_toList

/-- What stands before the first slash, or the whole text if there is none, holds no slash. -/
theorem not_mem_splitFirst? {s : String} :
    '/' ∉ ((Text.splitFirst? '/' s).getD (s, "")).1.toList := by
  rw [Text.splitFirst?]
  split
  · rename_i h
    rw [List.dropWhile_eq_nil_iff] at h
    intro slash
    exact absurd (h '/' slash) (by decide)
  · rw [Option.getD_some, String.toList_ofList]
    intro slash
    exact absurd (List.mem_takeWhile_imp slash) (by decide)

/-- A text that is not all slashes is not empty without those at its ends. -/
theorem dropAround_ne_empty {s : String} (h : ∃ c ∈ s.toList, c ≠ '/') :
    Text.dropAround '/' s ≠ "" := by
  obtain ⟨c, hc, hne⟩ := h
  rw [ne_eq, ← String.toList_eq_nil_iff, toList_dropAround, List.rdropWhile_eq_nil_iff]
  intro slashes
  have front := List.takeWhile_append_dropWhile (p := (· == '/')) (l := s.toList)
  rw [← front, List.mem_append] at hc
  rcases hc with hc | hc
  · have slash := List.mem_takeWhile_imp hc
    exact hne (beq_iff_eq.mp slash)
  · exact hne (beq_iff_eq.mp (slashes c hc))

namespace Location

variable {l : Location} {bucket key part : String}

/-! ### Plain locations -/

/-- The URI tells all of the location: its bucket is a name, no slash stands at the ends of its key,
and a file has a key. -/
structure IsPlain (l : Location) : Prop where
  bucket : IsName l.bucket
  key : IsTrimmed l.key
  file : l.isDirectory = false → l.key ≠ ""

theorem isPlain_directory (hb : IsName bucket) (key : String) : (directory bucket key).IsPlain :=
  ⟨hb, isTrimmed_dropAround key, nofun⟩

theorem isPlain_file (hb : IsName bucket) (hk : IsTrimmed key) (hne : key ≠ "") :
    (file bucket key).IsPlain := by
  rw [file, dropFront_eq_self hk.front]
  exact ⟨hb, hk, fun _ => hne⟩

theorem IsPlain.joinDirectory (h : l.IsPlain) (part : String) : (l.joinDirectory part).IsPlain :=
  isPlain_directory h.bucket _

theorem IsPlain.joinFile (h : l.IsPlain) (hp : ∃ c ∈ part.toList, c ≠ '/') :
    (l.joinFile part).IsPlain := by
  have name := dropAround_ne_empty hp
  rw [Location.joinFile, keyBelow]
  split
  · exact isPlain_file h.bucket (isTrimmed_dropAround part) name
  · rename_i hk
    exact isPlain_file h.bucket (h.key.append_slash (isTrimmed_dropAround part) hk name)
      (append_slash_ne_empty _ _)

/-! ### Reading a URI -/

/-- A key that neither is empty nor ends with a slash has a character behind the slashes in front. -/
theorem dropFront_ne_empty (hne : key ≠ "") (hlast : key.toList.getLast? ≠ some '/') :
    Text.dropFront '/' key ≠ "" := by
  rw [ne_eq, ← String.toList_eq_nil_iff] at hne ⊢
  rw [Text.dropFront, String.toList_ofList, List.dropWhile_eq_nil_iff]
  intro slashes
  refine hlast ?_
  rw [List.getLast?_eq_some_getLast hne, beq_iff_eq.mp (slashes _ (List.getLast_mem hne))]

theorem isTrimmed_dropFront (hlast : key.toList.getLast? ≠ some '/') :
    IsTrimmed (Text.dropFront '/' key) where
  front := by
    rw [Text.dropFront, String.toList_ofList]
    exact head?_dropWhile_ne key.toList
  back h := by
    rw [Text.dropFront, String.toList_ofList] at h
    obtain ⟨slashes, hs⟩ := List.dropWhile_suffix (· == '/') (l := key.toList)
    rw [← hs, List.getLast?_append_of_ne_nil _ (List.ne_nil_of_mem (List.mem_of_getLast? h))] at hlast
    exact hlast h

/-- What is read from a URI is plain. -/
theorem isPlain_of_ofUri {uri : String} (h : ofUri uri = .ok l) : l.IsPlain := by
  rw [ofUri] at h
  split at h
  · cases h
  · rename_i rest _
    have name := not_mem_splitFirst? (s := rest)
    generalize (Text.splitFirst? '/' rest).getD (rest, "") = parts at h name
    obtain ⟨bucket, key⟩ := parts
    dsimp only at h name
    split at h
    · cases h
    · rename_i hb
      split at h
      · cases h
        exact isPlain_directory ⟨hb, name⟩ key
      · rename_i hk
        rw [not_or] at hk
        cases h
        exact ⟨⟨hb, name⟩, isTrimmed_dropFront hk.2, fun _ => dropFront_ne_empty hk.1 hk.2⟩

/-- The text behind the bucket is read as a directory if it is empty or ends with a slash, else as a
file. -/
theorem ofUri_append (hb : IsName bucket) (key : String) : ofUri ("s3://" ++ (bucket ++ "/" ++ key)) =
    .ok (if key = "" ∨ key.toList.getLast? = some '/' then directory bucket key
      else file bucket key) := by
  simp only [ofUri, afterFront?_append, splitFirst?_append_slash hb.2, Option.getD_some, if_neg hb.1]
  split <;> rfl

theorem IsPlain.ofUri_uri (h : l.IsPlain) : ofUri l.uri = .ok l := by
  obtain ⟨bucket, key, isDirectory⟩ := l
  obtain ⟨hb, hk, hfile⟩ := h
  dsimp only at hb hk hfile
  have text (ending : String) : "s3://" ++ bucket ++ "/" ++ key ++ ending =
      "s3://" ++ (bucket ++ "/" ++ (key ++ ending)) := by
    simp only [String.append_assoc]
  rw [uri, text, ofUri_append hb]
  cases isDirectory with
  | false =>
    rw [Bool.false_and, if_neg Bool.false_ne_true, String.append_empty,
      if_neg (not_or.mpr ⟨hfile rfl, hk.back⟩), Location.file, dropFront_eq_self hk.front]
  | true =>
    by_cases hne : key = ""
    · subst hne
      have ending : (if (true && ("" : String) != "") = true then "/" else "") = "" := by simp
      rw [ending, String.append_empty, if_pos (.inl rfl), directory, hk.dropAround]
    · have ending : (if (true && key != "") = true then "/" else "") = "/" := by simp [hne]
      have last : (key ++ "/").toList.getLast? = some '/' := by
        rw [String.toList_append]
        exact List.getLast?_concat
      have trim := hk.dropAround_slash hne
      rw [String.append_empty] at trim
      rw [ending, if_pos (.inr last), directory, trim]

/-- A location is read again from its URI exactly when it is plain. -/
theorem ofUri_uri_iff : ofUri l.uri = .ok l ↔ l.IsPlain := ⟨isPlain_of_ofUri, IsPlain.ofUri_uri⟩

/-! ### Named locations -/

/-- A location that is named by a URI, as a directory of a bucket, or below another one by a
directory or by a file that has a name. -/
inductive Named : Location → Prop where
  | uri {uri : String} {l : Location} : ofUri uri = .ok l → Named l
  | directory {bucket : String} (key : String) : bucket ≠ "" → '/' ∉ bucket.toList →
      Named (directory bucket key)
  | joinDirectory {l : Location} (part : String) : Named l → Named (l.joinDirectory part)
  | joinFile {l : Location} {part : String} : (∃ c ∈ part.toList, c ≠ '/') → Named l →
      Named (l.joinFile part)

theorem Named.isPlain (h : Named l) : l.IsPlain := by
  induction h with
  | uri h => exact isPlain_of_ofUri h
  | directory key hne hslash => exact isPlain_directory ⟨hne, hslash⟩ key
  | joinDirectory part _ ih => exact ih.joinDirectory part
  | joinFile hp _ ih => exact ih.joinFile hp

/-- Every named location is read again from its URI: bucket, key and kind. -/
theorem ofUri_uri_of_named (h : Named l) : ofUri l.uri = .ok l := h.isPlain.ofUri_uri

/-- A file in a directory below one of many slashes. -/
theorem ofUri_uri_of_named_run :
    (((directory "etl" "//dev//etl/").joinDirectory "/src//x/").joinFile "/run.sh//").uri =
        "s3://etl/dev//etl/src//x/run.sh" ∧
      ofUri "s3://etl/dev//etl/src//x/run.sh" =
        .ok (((directory "etl" "//dev//etl/").joinDirectory "/src//x/").joinFile "/run.sh//") := by
  have uri : (((directory "etl" "//dev//etl/").joinDirectory "/src//x/").joinFile "/run.sh//").uri =
      "s3://etl/dev//etl/src//x/run.sh" := by decide +kernel
  have named : Named (((directory "etl" "//dev//etl/").joinDirectory "/src//x/").joinFile
      "/run.sh//") :=
    .joinFile ⟨'r', by decide, by decide⟩ (.joinDirectory _ (.directory _ (by decide) (by decide)))
  exact ⟨uri, uri ▸ ofUri_uri_of_named named⟩

end Location

end EtlFlow.Storage
