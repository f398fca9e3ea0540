import EtlFlow.Proofs.Outcome
import EtlFlow.Proofs.Step.Objects
import EtlFlow.Proofs.Storage.Location
import Mathlib.Data.List.Nodup
/-!
# What steps stage

A step stages files and directories right below its source directory, each under one name.  `Stages`
lists what the steps of each kind may stage; `expand_stages` says that they stage nothing else.  The
two scripts of a streaming step are the only ones of one step that may have the same name and kind
(`Stages.nodup`).
-/

namespace EtlFlow.Step

open Outcome
open Storage (Location IsName)
open Yaml (Value Fields)

/-! ### Names of files -/

/-- No piece of a text holds the character at which it is split. -/
theorem not_mem_of_mem_splitOn {c : Char} {s p : List Char} (h : p ∈ s.splitOn c) : c ∉ p := by
  induction s generalizing p with
  | nil =>
    rw [List.splitOn_nil, List.mem_singleton] at h
    rw [h]
    exact List.not_mem_nil
  | cons d s ih =>
    rw [List.splitOn_cons_eq_if_modifyHead] at h
    split at h
    · rcases List.mem_cons.mp h with rfl | h
      · exact List.not_mem_nil
      · exact ih h
    · rename_i hd
      obtain ⟨q, qs, hs⟩ := List.exists_cons_of_ne_nil (List.splitOn_ne_nil c s)
      rw [hs] at h ih
      rw [List.modifyHead_cons] at h
      rcases List.mem_cons.mp h with rfl | h
      · rw [List.mem_cons, not_or]
        exact ⟨fun same => hd (beq_iff_eq.mpr same.symm), ih List.mem_cons_self⟩
      · exact ih (List.mem_cons_of_mem q h)

theorem isName_of_mem_steps {path n : String} (h : .name n ∈ Files.Path.steps path) :
    IsName n := by
  rw [Files.Path.steps, List.mem_append] at h
  rcases h with h | h
  · obtain ⟨part, hpart, hn⟩ := List.mem_map.mp h
    rw [List.mem_filter, Text.splitAt, List.mem_map] at hpart
    obtain ⟨⟨p, hp, rfl⟩, ne⟩ := hpart
    have same : String.ofList p = n := by
      unfold Files.Step.ofPart at hn
      split at hn
      · cases hn
      · split at hn
        · cases hn
        · exact Files.Step.name.inj hn
    subst same
    refine ⟨of_decide_eq_true ne, ?_⟩
    rw [String.toList_ofList]
    exact not_mem_of_mem_splitOn hp
  · split at h
    · cases List.mem_singleton.mp h
    · cases h

theorem name_mem_steps_of_fileName {path n : String} (h : fileName path = .ok n) :
    .name n ∈ Files.Path.steps path := by
  unfold fileName demand Files.Path.fileName? at h
  split at h
  · rename_i found
    cases h
    split at found
    · rename_i name _ steps
      cases found
      have behind : Files.Step.name n ∈ (Files.Path.steps path).reverse :=
        (List.dropWhile_suffix _).subset (by rw [steps]; exact List.mem_cons_self)
      exact List.mem_reverse.mp behind
    · cases found
  · cases h

theorem isName_fileName {path n : String} (h : fileName path = .ok n) : IsName n :=
  isName_of_mem_steps (name_mem_steps_of_fileName h)

/-! ### What is staged -/

/-- A file or a directory that a step stages under a name. -/
structure Staged where
  name : String
  content : Content

/-- The content is a directory. -/
def Content.isDirectory : Content → Bool
  | .directory _ => true
  | _ => false

namespace Staged

/-- Where it goes to, below the source directory of the step. -/
def destination (home : Location) (s : Staged) : Location :=
  if s.content.isDirectory then home.joinDirectory s.name else home.joinFile s.name

/-- What is uploaded. -/
def artifact (home : Location) (s : Staged) : Artifact := ⟨s.destination home, s.content⟩

/-- What tells it from the others of the step: its name, and whether it is a directory. -/
def key (s : Staged) : String × Bool := (s.name, s.content.isDirectory)

variable {home other : Location} {s t : Staged}

theorem destination_eq (hl : home.IsHome) (hs : IsName s.name) :
    s.destination home = ⟨home.bucket, home.key ++ "/" ++ s.name, s.content.isDirectory⟩ := by
  rw [destination]
  split
  · rename_i h
    rw [h, hl.joinDirectory_eq, hs.isTrimmed.dropAround, Location.keyUnder, if_neg hs.1]
  · rename_i h
    rw [Bool.not_eq_true] at h
    rw [h, hl.joinFile_eq, hs.isTrimmed.dropAround]

/-- A destination tells the source directory, the name and the kind. -/
theorem destination_inj (hl : home.IsHome) (hl' : other.IsHome) (hb : home.bucket = other.bucket)
    (hs : IsName s.name) (ht : IsName t.name) :
    s.destination home = t.destination other ↔ home.key = other.key ∧ s.key = t.key := by
  rw [destination_eq hl hs, destination_eq hl' ht, Location.mk.injEq, key, key, Prod.mk.injEq]
  constructor
  · rintro ⟨-, below, same⟩
    obtain ⟨key, name⟩ := Storage.append_name_inj hs ht below
    exact ⟨key, name, same⟩
  · rintro ⟨key, name, same⟩
    exact ⟨hb, by rw [key, name], same⟩

end Staged

/-- What the steps of a kind stage. -/
inductive Stages : Kind → List Staged → Prop
  | nothing (k : Kind) : Stages k []
  | file {path n : String} {k : Kind} : k ∈ [.extractLocal, .transform, .emrStreaming] →
      fileName path = .ok n → Stages k [⟨n, .file path⟩]
  /-- The text of a script, under the name of its file. -/
  | script {path n text : String} : fileName path = .ok n → Stages .sqlCommand [⟨n, .text text⟩]
  /-- A directory and its launcher. -/
  | directory {path n text : String} : fileName path = .ok n →
      Stages .transform [⟨n, .directory path⟩, ⟨"launcher.sh", .text text⟩]
  | streaming {mapper reducer m r : String} : fileName mapper = .ok m → fileName reducer = .ok r →
      Stages .emrStreaming [⟨m, .file mapper⟩, ⟨r, .file reducer⟩]

variable {k : Kind} {items : List Staged} {c : Context} {e : Expansion}

theorem isName_launcher : IsName "launcher.sh" := by decide

/-- What is staged has the name of a file or that of launchers. -/
theorem Stages.forall_name {P : String → Prop} (hfile : ∀ {path n}, fileName path = .ok n → P n)
    (hlauncher : P "launcher.sh") (h : Stages k items) : ∀ i ∈ items, P i.name := by
  cases h with
  | nothing => exact List.forall_mem_nil _
  | file _ h => exact List.forall_mem_singleton.mpr (hfile h)
  | script h => exact List.forall_mem_singleton.mpr (hfile h)
  | directory h =>
    exact List.forall_mem_cons.mpr ⟨hfile h, List.forall_mem_singleton.mpr hlauncher⟩
  | streaming hm hr =>
    exact List.forall_mem_cons.mpr ⟨hfile hm, List.forall_mem_singleton.mpr (hfile hr)⟩

theorem Stages.isName (h : Stages k items) : ∀ i ∈ items, IsName i.name :=
  h.forall_name isName_fileName isName_launcher

/-- Only the scripts of a streaming step may have one name. -/
theorem Stages.nodup (h : Stages k items)
    (hk : k = .emrStreaming → (items.map Staged.name).Nodup) : (items.map Staged.key).Nodup := by
  cases h with
  | nothing => exact List.nodup_nil
  | file => simp
  | script => simp
  | directory => simp [Staged.key, Content.isDirectory]
  | streaming =>
    refine List.Nodup.of_map Prod.fst ?_
    rw [List.map_map]
    exact hk rfl

/-! ### Steps that stage -/

theorem stages_content {a : SqlArguments} {text : Option String} {script : Option Artifact}
    (h : a.content c = .ok (text, script)) :
    ∃ items, Stages .sqlCommand items ∧
      script.toList = items.map (Staged.artifact c.paths.source) := by
  unfold SqlArguments.content at h
  split at h
  · cases h
    exact ⟨[], .nothing _, rfl⟩
  · simp only [bind_eq_ok_iff, pure_eq_ok_iff] at h
    obtain ⟨script, -, n, hn, h⟩ := h
    cases h
    exact ⟨[⟨n, .text _⟩], .script hn, rfl⟩

theorem stages_parts {a : TransformArguments} {parts : CommandParts} (h : a.parts c = .ok parts) :
    ∃ items, Stages .transform items ∧
      parts.artifacts = items.map (Staged.artifact c.paths.source) := by
  unfold TransformArguments.parts at h
  split at h
  · cases h
    exact ⟨[], .nothing _, rfl⟩
  · simp only [bind_eq_ok_iff, pure_eq_ok_iff] at h
    obtain ⟨n, hn, rfl⟩ := h
    exact ⟨[⟨n, .file _⟩], .file (by simp) hn, rfl⟩
  · simp only [directoryParts, guard_eq_ok_iff, bind_eq_ok_iff, pure_eq_ok_iff] at h
    obtain ⟨-, n, hn, rfl⟩ := h
    exact ⟨[⟨n, .directory _⟩, ⟨"launcher.sh", .text _⟩], .directory hn, rfl⟩

theorem stageFile_eq_ok {path : String} {a : Artifact} (h : stageFile c path = .ok a) :
    ∃ n, fileName (c.resolve path) = .ok n ∧
      a = Staged.artifact c.paths.source ⟨n, .file (c.resolve path)⟩ := by
  simp only [stageFile, bind_eq_ok_iff, pure_eq_ok_iff] at h
  obtain ⟨n, hn, rfl⟩ := h
  exact ⟨n, hn, rfl⟩

theorem stages_scripts {a : StreamingArguments} {mapper : Artifact} {reducer : Option Artifact}
    (hmapper : stageFile c a.mapper = .ok mapper)
    (hreducer : a.reducer.mapM (stageFile c) = .ok reducer) :
    ∃ items, Stages .emrStreaming items ∧
      mapper :: reducer.toList = items.map (Staged.artifact c.paths.source) := by
  obtain ⟨m, hm, rfl⟩ := stageFile_eq_ok hmapper
  cases ha : a.reducer with
  | none =>
    rw [ha] at hreducer
    cases hreducer
    exact ⟨[_], .file (by simp) hm, rfl⟩
  | some path =>
    rw [ha] at hreducer
    obtain ⟨_, hstage, rfl⟩ := Outcome.map_eq_ok_iff.mp hreducer
    obtain ⟨r, hr, rfl⟩ := stageFile_eq_ok hstage
    exact ⟨[_, _], .streaming hm hr, rfl⟩

/-- What a step stages lies right below its source directory. -/
theorem expand_stages {entries : Value.Entries} (h : expand k entries c = .ok e) :
    ∃ items, Stages k items ∧ e.artifacts = items.map (Staged.artifact c.paths.source) := by
  cases expand_makes h with
  | @file path n hn => exact ⟨[⟨n, .file path⟩], .file (by simp) hn, rfl⟩
  | streaming hmapper hreducer => exact stages_scripts hmapper hreducer
  | command hparts => exact stages_parts hparts
  | statement _ hcontent => exact stages_content hcontent
  | several => exact ⟨[], .nothing _, artifacts_chained _⟩
  | _ => exact ⟨[], .nothing _, rfl⟩

end EtlFlow.Step
