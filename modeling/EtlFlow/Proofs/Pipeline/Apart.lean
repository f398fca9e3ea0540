import EtlFlow.Proofs.Pipeline.Staged
import EtlFlow.Proofs.Pipeline.Written
/-!
# Staged files beside each other

Where the ids of the steps are names of their own and no streaming step has two scripts of one name
(`Separate`), the uploads of a compiled pipeline all go to URIs of their own, the files of staged
directories included (`nodup_plans`), and a successful activation leaves all of them with their own
content.  Without that, a second script of the same name takes the place of the first
(`streaming_scripts_collide`).
-/

namespace EtlFlow.Pipeline

open Outcome
open Step (Staged Artifact Content)
open Storage (Location Memory Store IsName RetryPolicy)

variable {files : Files.Tree} {home : Location} {i j : Staged} {us vs : List Upload}

/-! ### Where the uploads of an item go -/

/-- The key, seen from the source directory of the step, is that of the item, or one below it. -/
def Beneath (i : Staged) (path : String) : Prop :=
  if i.content.isDirectory then ∃ r, path = i.name ++ "/" ++ r else path = i.name

/-- A key is that of one item only. -/
theorem key_eq_of_beneath (hi : IsName i.name) (hj : IsName j.name) {path : String}
    (h : Beneath i path) (h' : Beneath j path) : i.key = j.key := by
  unfold Beneath at h h'
  rw [Staged.key, Staged.key]
  split at h
  · rename_i di
    obtain ⟨r, rfl⟩ := h
    split at h'
    · rename_i dj
      obtain ⟨r', same⟩ := h'
      rw [di, dj, (Storage.name_append_inj hi hj same).1]
    · exact absurd h'.symm hj.ne_append
  · rename_i di
    subst h
    split at h'
    · obtain ⟨r', same⟩ := h'
      exact absurd same hi.ne_append
    · rename_i dj
      rw [h', Bool.eq_false_iff.mpr di, Bool.eq_false_iff.mpr dj]

/-- A file in a staged directory. -/
theorem joinFile_directory (hl : home.IsHome) {name : String} (hn : IsName name) (part : String) :
    (home.joinDirectory name).joinFile part =
      ⟨home.bucket, home.key ++ "/" ++ (name ++ "/" ++ Text.dropAround '/' part), false⟩ := by
  rw [(hl.joinDirectory name).joinFile_eq, hl.joinDirectory_eq, hn.isTrimmed.dropAround,
    Location.keyUnder, if_neg hn.1]
  simp only [String.append_assoc]

/-- The uploads of an item go below the source directory of its step, in a plain tree each to a
place of its own. -/
theorem uploads_item (hl : home.IsHome) (hi : IsName i.name)
    (h : uploads files (i.artifact home) = .ok us) : ∃ parts : List (Body × String),
      us = parts.map (fun q => ⟨q.1, ⟨home.bucket, home.key ++ "/" ++ q.2, false⟩⟩) ∧
      (∀ q ∈ parts, Beneath i q.2) ∧ (files.IsPlain → (parts.map (·.2)).Nodup) := by
  obtain ⟨name, text | path | path⟩ := i
  · rw [Staged.artifact, Staged.destination_eq hl hi] at h
    cases h
    exact ⟨[(.text text, name)], rfl, by simp [Beneath, Content.isDirectory], by simp⟩
  · rw [Staged.artifact, Staged.destination_eq hl hi] at h
    cases h
    exact ⟨[(.file path, name)], rfl, by simp [Beneath, Content.isDirectory], by simp⟩
  · have target : Staged.destination home ⟨name, .directory path⟩ = home.joinDirectory name := rfl
    rw [Staged.artifact, target] at h
    simp only [uploads] at h
    split at h
    · cases h
    · cases h
      rw [joinFile_directory hl hi]
      exact ⟨[(.file path, _)], rfl, by simp [Beneath, Content.isDirectory], by simp⟩
    · rename_i place _
      cases h
      refine ⟨(files.placesBelow place).map fun below => (.file (Files.pathBelow path below),
        name ++ "/" ++ Text.dropAround '/' ("/".intercalate below)), ?_, ?_, fun plain => ?_⟩
      · simp only [joinFile_directory hl hi, Files.Tree.placesBelow, List.map_map,
          Function.comp_def]
      · intro q hq
        obtain ⟨below, -, rfl⟩ := List.mem_map.mp hq
        exact ⟨_, rfl⟩
      · rw [List.map_map]
        refine (plain.nodup_placesBelow place).map_on fun a ha b hb same => ?_
        have names := plain.isName_below place
        have same := (String.append_right_inj _).mp same
        rw [(Storage.isTrimmed_intercalate (names a ha)).dropAround,
          (Storage.isTrimmed_intercalate (names b hb)).dropAround] at same
        exact Storage.intercalate_inj (names a ha) (names b hb) same

/-! ### Objects below the source directory -/

/-- The URI of the object at a path below a directory. -/
def objectUri (root : Location) (path : String) : String :=
  "s3://" ++ root.bucket ++ "/" ++ (root.key ++ "/" ++ path)

theorem objectUri_inj {root : Location} {path other : String} :
    objectUri root path = objectUri root other ↔ path = other := by
  rw [objectUri, objectUri, String.append_right_inj, String.append_right_inj]

variable {paths : Paths} {x : String × Staged}

/-- The step has an id that is a name, and so has what it stages. -/
def HasNames (x : String × Staged) : Prop := IsName x.1 ∧ IsName x.2.name

theorem uris_item (hl : paths.source.IsHome) (hx : HasNames x)
    (h : uploads files (paths.artifact x) = .ok us) : ∃ below : List String,
      us.map (·.destination.uri) =
        below.map (fun path => objectUri paths.source (x.1 ++ "/" ++ path)) ∧
      (∀ path ∈ below, Beneath x.2 path) ∧ (files.IsPlain → below.Nodup) := by
  obtain ⟨parts, rfl, beneath, nodup⟩ := uploads_item (hl.joinDirectory x.1) hx.2 h
  refine ⟨parts.map (·.2), ?_, List.forall_mem_map.mpr beneath, nodup⟩
  rw [List.map_map, List.map_map]
  refine List.map_congr_left fun q _ => ?_
  simp only [Function.comp_apply, Location.uri_file, hl.joinDirectory_eq,
    hx.1.isTrimmed.dropAround, Location.keyUnder, if_neg hx.1.1, objectUri, String.append_assoc]

/-- All uploads of a plan go to URIs of their own, each below the directory of its step. -/
theorem nodup_plans (hl : paths.source.IsHome) (hfiles : files.IsPlain)
    {items : List (String × Staged)} {plans : List (List Upload)} (names : ∀ x ∈ items, HasNames x)
    (keys : (items.map fun x => (x.1, x.2.key)).Nodup)
    (h : UploadsOf files (items.map paths.artifact) plans) :
    (plans.flatten.map (·.destination.uri)).Nodup ∧
      ∀ uri ∈ plans.flatten.map (·.destination.uri), ∃ x ∈ items, ∃ path, Beneath x.2 path ∧
        uri = objectUri paths.source (x.1 ++ "/" ++ path) := by
  induction items generalizing plans with
  | nil =>
    cases h
    exact ⟨List.nodup_nil, nofun⟩
  | cons x items ih =>
    rw [List.map_cons] at h
    rcases h with _ | ⟨expands, rest⟩
    rw [List.forall_mem_cons] at names
    rw [List.map_cons, List.nodup_cons] at keys
    obtain ⟨below, uris, beneath, nodup⟩ := uris_item hl names.1 expands
    obtain ⟨nodup', placed⟩ := ih names.2 keys.2 rest
    rw [List.flatten_cons, List.map_append, uris]
    constructor
    · refine List.Nodup.append ?_ nodup' fun uri here there => ?_
      · refine (nodup hfiles).map fun path other same => ?_
        exact (String.append_right_inj _).mp (objectUri_inj.mp same)
      -- the same object twice: then the ids, the names and the kinds agree
      · obtain ⟨path, hpath, rfl⟩ := List.mem_map.mp here
        obtain ⟨y, hy, other, hother, same⟩ := placed _ there
        obtain ⟨id, rfl⟩ := Storage.name_append_inj names.1.1 (names.2 y hy).1
          (objectUri_inj.mp same)
        have key := key_eq_of_beneath names.1.2 (names.2 y hy).2 (beneath path hpath) hother
        exact keys.1 (List.mem_map.mpr ⟨y, hy, by rw [id, key]⟩)
    · refine List.forall_mem_append.mpr ⟨?_, fun uri huri => ?_⟩
      · exact List.forall_mem_map.mpr fun path hpath =>
          ⟨x, List.mem_cons_self, path, beneath path hpath, rfl⟩
      · obtain ⟨y, hy, below⟩ := placed uri huri
        exact ⟨y, List.mem_cons_of_mem x hy, below⟩

/-! ### Pipelines with names of their own -/

/-- The ids of the steps are names, no two steps have one, and no streaming step has two scripts of
one name. -/
structure Separate (staging : Staging) : Prop where
  names : ∀ q ∈ staging, IsName q.1.id
  ids : (staging.map (·.1.id)).Nodup
  scripts : ∀ q ∈ staging, q.1.kind = .emrStreaming → (q.2.map (·.name)).Nodup

variable {p : Pipeline} {staging : Staging}

theorem Separate.hasNames (h : Separate staging) (hp : p.Stages staging) :
    ∀ x ∈ staging.items, HasNames x := by
  intro x hx
  refine ⟨?_, hp.isName hx⟩
  obtain ⟨q, hq, hx⟩ := List.mem_flatMap.mp hx
  obtain ⟨i, hi, rfl⟩ := List.mem_map.mp hx
  exact h.names q hq

theorem Separate.nodup_items (h : Separate staging) (hp : p.Stages staging) :
    (staging.items.map fun x => (x.1, x.2.key)).Nodup := by
  rw [Staging.items, List.map_flatMap, List.nodup_flatMap]
  constructor
  · intro q hq
    have keys := (hp.stages q hq).nodup (h.scripts q hq)
    rw [List.map_map]
    refine List.Nodup.of_map Prod.snd ?_
    rwa [List.map_map]
  · refine (List.pairwise_map.mp h.ids).imp fun {q r} ne key hq hr => ?_
    obtain ⟨x, hx, rfl⟩ := List.mem_map.mp hq
    obtain ⟨y, hy, same⟩ := List.mem_map.mp hr
    obtain ⟨_, -, rfl⟩ := List.mem_map.mp hx
    obtain ⟨_, -, rfl⟩ := List.mem_map.mp hy
    exact ne (Prod.mk.inj same).1.symm

/-- Ids that are names tell the directories of the steps. -/
theorem Separate.nodup_destinations (h : Separate staging) (hp : p.Stages staging)
    (hl : p.paths.source.IsHome) : (p.artifacts.map (·.destination)).Nodup := by
  have names := h.hasNames hp
  rw [hp.artifacts, Staging.artifacts_eq, List.map_map, List.Nodup, List.pairwise_map]
  refine (List.pairwise_map.mp (h.nodup_items hp)).imp_of_mem fun {x y} hx hy ne same => ne ?_
  have key := (destination_inj hl (names x hx).2 (names y hy).2).mp same
  rwa [itemKey, itemKey, (names x hx).1.isTrimmed.dropAround,
    (names y hy).1.isTrimmed.dropAround] at key

/-- The uploads of a pipeline and its definition go to URIs of their own. -/
theorem Separate.nodup_uris (h : Separate staging) (hp : p.Stages staging)
    (hl : p.paths.source.IsHome) (hfiles : files.IsPlain) {plans : List (List Upload)}
    (hplans : UploadsOf files p.artifacts plans) :
    ((plans.flatten ++ [definitionUpload p]).map (·.destination.uri)).Nodup := by
  rw [hp.artifacts, Staging.artifacts_eq] at hplans
  obtain ⟨nodup, placed⟩ := nodup_plans hl hfiles (h.hasNames hp) (h.nodup_items hp) hplans
  rw [List.map_append]
  refine nodup.append (by simp) fun uri here there => ?_
  obtain ⟨x, hx, path, -, rfl⟩ := placed uri here
  rw [List.map_singleton, List.mem_singleton] at there
  have name : IsName "pipeline_definition.json" := by decide
  have definition : (definitionUpload p).destination.uri =
      objectUri p.paths.source "pipeline_definition.json" := by
    rw [definitionUpload, Paths.definition, hl.joinFile_eq, name.isTrimmed.dropAround,
      Location.uri_file, objectUri]
  rw [definition, objectUri_inj] at there
  exact name.ne_append there.symm

/-! ### Compiled pipelines -/

/-- An artifact whose uploads are all in the store, each with its own content. -/
def IsKept (files : Files.Tree) (m : Memory) (a : Artifact) : Prop :=
  ∃ us, uploads files a = .ok us ∧ ∀ u ∈ us, ∃ content, u.content files = .ok content ∧
    m.content? u.destination.uri = some content

/-- Each artifact of a compiled pipeline is staged by one of its steps, and two of them have one
destination just where the ids of their steps agree up to slashes at the ends and they have the same
name and kind.  Where the steps have names of their own, all destinations differ, and a successful
activation leaves each artifact with its own content. -/
theorem staged_apart {c : Compiler} {d : Definition} (h : c.withoutHooks.compile d = .ok p) :
    ∃ staging, p.Stages staging ∧
      (∀ x ∈ staging.items, ∀ y ∈ staging.items,
        (p.paths.artifact x).destination = (p.paths.artifact y).destination ↔
          itemKey x = itemKey y) ∧
      (Separate staging → (p.artifacts.map (·.destination)).Nodup ∧
        ∀ policy (m m' : Memory) report, m.files.IsPlain →
          (activate Store.memory policy p).runAt m = (.ok report, m') →
            ∀ a ∈ p.artifacts, IsKept m.files m' a) := by
  rw [Compiler.compile_withoutHooks] at h
  obtain ⟨hl, staging, hp⟩ := stages_compileDefinition h
  refine ⟨staging, hp, fun x hx y hy => destination_inj hl (hp.isName hx) (hp.isName hy),
    fun separate => ⟨separate.nodup_destinations hp hl, ?_⟩⟩
  intro policy m m' report plain run a ha
  obtain ⟨plans, listed, writes⟩ := writes_activate run
  have uris := separate.nodup_uris hp hl plain listed
  obtain ⟨us, hus, expands⟩ := listed.exists_mem ha
  refine ⟨us, expands, fun u hu => ?_⟩
  exact writes.lookup_of_mem uris
    (List.mem_append_left _ (List.mem_flatten.mpr ⟨us, hus, hu⟩))

/-- Two steps that each run a script of the name `run.sh`. -/
def twoScripts : Definition where
  name := "words"
  frequency := .oneTime
  steps := [
    Compiler.describe "transform" "fetch" [("script", "fetch/run.sh")],
    Compiler.describe "transform" "clean" [("script", "clean/run.sh")]]

/-- A store in memory beside the scripts of `twoScripts`. -/
def besideScripts : Memory where
  files := { entries := [
    (["fetch", "run.sh"], .file "curl".toUTF8), (["clean", "run.sh"], .file "sort".toUTF8)] }

/-- Without streaming steps, the ids alone tell the artifacts. -/
theorem separate_of_ids {staging : Staging} {known : List (String × Step.Kind)}
    (h : staging.map (fun q => (q.1.id, q.1.kind)) = known)
    (names : ∀ k ∈ known, IsName k.1 ∧ k.2 ≠ .emrStreaming) (ids : (known.map (·.1)).Nodup) :
    Separate staging := by
  subst h
  rw [List.forall_mem_map] at names
  rw [List.map_map] at ids
  exact ⟨fun q hq => (names q hq).1, ids,
    fun q hq streaming => absurd streaming (names q hq).2⟩

theorem staged_apart_twoScripts :
    ∃ p, Compiler.sample.withoutHooks.compile twoScripts = .ok p ∧
      (p.artifacts.map (·.destination)).Nodup ∧
      ∃ report m', (activate Store.memory {} p).runAt besideScripts = (.ok report, m') ∧
        ∀ a ∈ p.artifacts, IsKept besideScripts.files m' a := by
  obtain ⟨b, hb, built⟩ := exists_ok_of_map_toOption (x := Compiler.sample.built twoScripts)
    (f := fun b => (b.steps.map fun s => (s.id, s.kind), b.artifacts.map (·.content)))
    (b := ([("fetch", .transform), ("clean", .transform)],
      [.file "fetch/run.sh", .file "clean/run.sh"])) (by decide +kernel)
  obtain ⟨stepList, contents⟩ := Prod.mk.inj built
  obtain ⟨p, h⟩ := Compiler.exists_compileDefinition hb
  obtain ⟨_, _, b', _, _, hb', _, steps, artifacts⟩ := build_of_compileDefinition h
  rw [hb, Except.ok.injEq] at hb'
  subst hb'
  rw [← Compiler.compile_withoutHooks] at h
  obtain ⟨staging, hp, -, apart⟩ := staged_apart h
  have separate : Separate staging := by
    have ids : staging.map (fun q => (q.1.id, q.1.kind)) =
        [("fetch", .transform), ("clean", .transform)] := by
      rw [← stepList, ← steps, hp.steps, List.map_map]
      rfl
    exact separate_of_ids ids (by decide) (by decide)
  obtain ⟨nodup, kept⟩ := apart separate
  have plain : besideScripts.files.IsPlain := ⟨by decide +kernel, by decide +kernel⟩
  have reads : p.ReadsAll besideScripts.files := by
    have readable : ∀ path ∈ ["fetch/run.sh", "clean/run.sh"],
        (besideScripts.files.read path).isOk = true := by decide +kernel
    intro ⟨dest, content⟩ ha
    have known : content ∈ ["fetch/run.sh", "clean/run.sh"].map Content.file := by
      rw [List.map_cons, List.map_singleton, ← contents, ← artifacts]
      exact List.mem_map_of_mem (f := (·.content)) ha
    obtain ⟨path, hpath, rfl⟩ := List.mem_map.mp known
    exact ⟨[⟨.file path, dest⟩], rfl,
      List.forall_mem_singleton.mpr (exists_ok_of_isOk (readable path hpath))⟩
  have few : besideScripts.failing < max ({} : RetryPolicy).attempts 1 := by decide
  obtain ⟨report, ok⟩ := activate_of_failing_lt reads few
  exact ⟨p, h, nodup, report, _, Prod.ext ok rfl, kept _ _ _ report plain (Prod.ext ok rfl)⟩

/-- A streaming job whose two scripts are both named `run.py`. -/
def wordCount : Definition where
  name := "words"
  frequency := .oneTime
  steps := [
    Compiler.describe "extract-s3" "texts" [("directory_uri", "s3://landing/texts/")],
    Compiler.describe "emr-streaming" "count"
      [("mapper", "map/run.py"), ("reducer", "reduce/run.py")]]

/-- The two scripts have one destination, and so do not both keep their content. -/
theorem streaming_scripts_collide :
    ∃ p a b, Compiler.sample.withoutHooks.compile wordCount = .ok p ∧ p.artifacts = [a, b] ∧
      a.content = .file "map/run.py" ∧ b.content = .file "reduce/run.py" ∧
      a.destination = b.destination ∧
      ∀ (files : Files.Tree) (m : Memory), files.read "map/run.py" ≠ files.read "reduce/run.py" →
        ¬(IsKept files m a ∧ IsKept files m b) := by
  obtain ⟨b, hb, artifacts⟩ := exists_ok_of_map_toOption (x := Compiler.sample.built wordCount)
    (f := (·.artifacts)) (b := [
      ⟨.file "etl" "src/words/version_19700101000000/count/run.py", .file "map/run.py"⟩,
      ⟨.file "etl" "src/words/version_19700101000000/count/run.py", .file "reduce/run.py"⟩])
    (by decide +kernel)
  obtain ⟨p, h⟩ := Compiler.exists_compileDefinition hb
  obtain ⟨_, _, b', _, _, hb', _, _, staged⟩ := build_of_compileDefinition h
  rw [hb, Except.ok.injEq] at hb'
  subst hb'
  rw [← Compiler.compile_withoutHooks] at h
  refine ⟨p, _, _, h, staged.trans artifacts, rfl, rfl, rfl, ?_⟩
  rintro files m differ ⟨⟨us, hus, first⟩, ⟨vs, hvs, second⟩⟩
  cases hus
  cases hvs
  obtain ⟨content, read, there⟩ := first _ List.mem_cons_self
  obtain ⟨content', read', there'⟩ := second _ List.mem_cons_self
  rw [there, Option.some.injEq] at there'
  subst there'
  exact differ (read.trans read'.symm)

end EtlFlow.Pipeline
