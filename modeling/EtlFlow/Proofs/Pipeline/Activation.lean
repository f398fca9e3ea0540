import EtlFlow.Proofs.Pipeline.Transfers
/-!
# Activation writes the definition last

The puts of an activation on any store (`Activates`): the artifacts that were reached, one transfer
after another, and behind all of them the definition.  On the store in memory, failures for a moment
decide about the whole activation: either every upload gets through (`Passes`), or the first one
fails and nothing is written (`Blocks`).  `activate_definition_last` is both.
-/

namespace EtlFlow.Pipeline

open Storage
open Transfer (allPuts)

variable {σ : Type}

/-- The definition of a pipeline as an upload. -/
def definitionUpload (p : Pipeline) : Upload := ⟨.text p.document, p.paths.definition⟩

/-! ### The store in memory -/

section memory

variable {α β : Type} {policy : RetryPolicy} {files : Files.Tree} {m : Memory}

/-- The content of the upload can be had. -/
def Upload.IsReadable (files : Files.Tree) (u : Upload) : Prop :=
  match u.body with
  | .text _ => True
  | .file path => ∃ content, files.read path = .ok content

theorem put_memory {u : Upload} (h : u.IsReadable files) : ∃ content, ∀ m : Memory,
    m.files = files → put Store.memory u m = m.put content u.destination := by
  obtain ⟨text | path, dest⟩ := u
  · exact ⟨text.toUTF8, fun m _ => rfl⟩
  · obtain ⟨content, read⟩ := h
    refine ⟨content, fun m hm => ?_⟩
    have read : (Store.memory.files m).read path = .ok content := by
      rw [← read, ← hm]
      rfl
    simp only [put, Store.putFile, read]
    rfl

theorem put_of_failing {n : Nat} (h : m.failing = n + 1) (content : ByteArray) (dest : Location) :
    ∃ e, e.isTransient = true ∧ m.put content dest =
      (.error e, { m with attempts := m.attempts + 1, failing := n }) := by
  refine ⟨.transient ("throttled writing " ++ dest.uri), rfl, ?_⟩
  rw [Memory.put, h]

theorem put_of_not_failing (h : m.failing = 0) (content : ByteArray) (dest : Location) :
    ∃ m', m.put content dest = (.ok (), m') ∧ m'.failing = 0 ∧ m'.files = m.files := by
  refine ⟨{ m with
    attempts := m.attempts + 1
    objects := Memory.insert dest.uri content m.objects }, ?_, h, rfl⟩
  rw [Memory.put, h]

/-- Fewer failures than calls: the upload gets through. -/
theorem outcome_of_failing_le (policy : RetryPolicy) {u : Upload} (h : u.IsReadable files)
    (more n : Nat) (hfiles : m.files = files) (hm : m.failing ≤ more) : ∃ m',
      RetryPolicy.outcome (policy.callAgain StoreError.isTransient (put Store.memory u) more n m) =
        (.ok (), m') ∧ m'.failing = 0 ∧ m'.files = files := by
  obtain ⟨content, hput⟩ := put_memory h
  induction more generalizing n m with
  | zero =>
    obtain ⟨m', hm', zero, same⟩ := put_of_not_failing (Nat.le_zero.mp hm) content u.destination
    rw [← hput m hfiles] at hm'
    exact ⟨m', RetryPolicy.outcome_of_stop n hm' (.inl rfl), zero, same.trans hfiles⟩
  | succ more ih =>
    cases hf : m.failing with
    | zero =>
      obtain ⟨m', hm', zero, same⟩ := put_of_not_failing hf content u.destination
      rw [← hput m hfiles] at hm'
      exact ⟨m', RetryPolicy.outcome_of_stop n hm' (.inr fun e he => by cases he), zero,
        same.trans hfiles⟩
    | succ k =>
      obtain ⟨e, transient, fails⟩ := put_of_failing hf content u.destination
      rw [← hput m hfiles] at fails
      rw [RetryPolicy.outcome_of_again more n fails transient]
      exact ih (n + 1) hfiles (by simp only; omega)

/-- At least as many failures as calls: the upload fails, and nothing is written. -/
theorem outcome_of_lt_failing (policy : RetryPolicy) {u : Upload} (h : u.IsReadable files)
    (more n : Nat) (hfiles : m.files = files) (hm : more < m.failing) : ∃ e m',
      RetryPolicy.outcome (policy.callAgain StoreError.isTransient (put Store.memory u) more n m) =
        (.error e, m') ∧ m'.objects = m.objects := by
  obtain ⟨content, hput⟩ := put_memory h
  induction more generalizing n m with
  | zero =>
    obtain ⟨k, hk⟩ := Nat.exists_eq_succ_of_ne_zero (Nat.ne_zero_of_lt hm)
    obtain ⟨e, -, fails⟩ := put_of_failing hk content u.destination
    rw [← hput m hfiles] at fails
    exact ⟨e, _, RetryPolicy.outcome_of_stop n fails (.inl rfl), rfl⟩
  | succ more ih =>
    obtain ⟨k, hk⟩ := Nat.exists_eq_succ_of_ne_zero (Nat.ne_zero_of_lt hm)
    obtain ⟨e, transient, fails⟩ := put_of_failing hk content u.destination
    rw [← hput m hfiles] at fails
    rw [RetryPolicy.outcome_of_again more n fails transient]
    exact ih (n + 1) hfiles (by simp only; omega)

/-! ### What gets through -/

/-- The activity succeeds where fewer than `n` failures are to come, and leaves fewer than `n`. -/
def Passes (files : Files.Tree) (n : Nat) (x : OnStore Memory α) (m : Memory) : Prop :=
  ∃ a m', x.runAt m = (.ok a, m') ∧ m'.failing < n ∧ m'.files = files

/-- The activity puts nothing, or fails and leaves the objects as they are. -/
def Blocks (x : OnStore Memory α) (m : Memory) : Prop :=
  (∃ a, x.runAt m = (.ok a, m)) ∨ ∃ e m', x.runAt m = (.error e, m') ∧ m'.objects = m.objects

theorem Passes.congr {n : Nat} {x y : OnStore Memory α} (h : Passes files n x m)
    (hy : y.runAt m = x.runAt m) : Passes files n y m := by
  rwa [Passes, hy]

theorem Blocks.congr {x y : OnStore Memory α} (h : Blocks x m) (hy : y.runAt m = x.runAt m) :
    Blocks y m := by
  rwa [Blocks, hy]

theorem Passes.bind {n : Nat} {x : OnStore Memory α} {f : α → OnStore Memory β}
    (h : Passes files n x m)
    (hf : ∀ a m', m'.failing < n → m'.files = files → Passes files n (f a) m') :
    Passes files n (x >>= f) m := by
  obtain ⟨a, m', run, few, same⟩ := h
  rw [Passes, runAt_bind_of_ok run]
  exact hf a m' few same

theorem Blocks.bind {x : OnStore Memory α} {f : α → OnStore Memory β} (h : Blocks x m)
    (hf : ∀ a, Blocks (f a) m) : Blocks (x >>= f) m := by
  obtain ⟨a, run⟩ | ⟨e, m', run, same⟩ := h
  · rw [Blocks, runAt_bind_of_ok run]
    exact hf a
  · exact .inr ⟨e, m', runAt_bind_of_error run f, same⟩

theorem passes_upload {u : Upload} (h : u.IsReadable files) (hfiles : m.files = files)
    (hm : m.failing < max policy.attempts 1) :
    Passes files (max policy.attempts 1) (upload Store.memory policy u) m := by
  obtain ⟨m', run, zero, same⟩ := outcome_of_failing_le policy h (policy.attempts - 1) 0 hfiles
    (by omega)
  exact ⟨u.destination, m', runAt_upload Store.memory run, by omega, same⟩

theorem upload_of_le_failing (policy : RetryPolicy) {u : Upload} (h : u.IsReadable files)
    (hfiles : m.files = files) (hm : max policy.attempts 1 ≤ m.failing) : ∃ e m',
      (upload Store.memory policy u).runAt m = (.error e, m') ∧ m'.objects = m.objects := by
  obtain ⟨e, m', run, same⟩ := outcome_of_lt_failing policy h (policy.attempts - 1) 0 hfiles
    (by omega)
  exact ⟨.store u.destination e, m', runAt_upload Store.memory run, same⟩

theorem passes_mapM {n : Nat} {f : β → OnStore Memory α} {bs : List β}
    (h : ∀ b ∈ bs, ∀ m, m.files = files → m.failing < n → Passes files n (f b) m)
    (hfiles : m.files = files) (hm : m.failing < n) : Passes files n (bs.mapM f) m := by
  induction bs generalizing m with
  | nil => exact ⟨[], m, rfl, hm, hfiles⟩
  | cons b bs ih =>
    rw [List.forall_mem_cons] at h
    rw [List.mapM_cons]
    refine (h.1 m hfiles hm).bind fun a m' few same => ?_
    refine (ih h.2 same few).bind fun as m'' few same => ?_
    exact ⟨a :: as, m'', rfl, few, same⟩

theorem blocks_mapM {f : β → OnStore Memory α} {bs : List β} (h : ∀ b ∈ bs, Blocks (f b) m) :
    Blocks (bs.mapM f) m := by
  induction bs with
  | nil => exact .inl ⟨[], rfl⟩
  | cons b bs ih =>
    rw [List.forall_mem_cons] at h
    rw [List.mapM_cons]
    exact h.1.bind fun a => (ih h.2).bind fun as => .inl ⟨a :: as, rfl⟩

/-- All the local files that a pipeline stages can be read. -/
def ReadsAll (p : Pipeline) (files : Files.Tree) : Prop :=
  ∀ a ∈ p.artifacts, ∃ us, uploads files a = .ok us ∧ ∀ u ∈ us, u.IsReadable files

/-- The activation on a store in memory gets through where the failures to come are fewer than the
attempts of one upload. -/
theorem activate_of_failing_lt {policy : RetryPolicy} {p : Pipeline} (h : p.ReadsAll m.files)
    (hm : m.failing < max policy.attempts 1) :
    ∃ report, ((activate Store.memory policy p).runAt m).1 = .ok report := by
  have artifacts : Passes m.files (max policy.attempts 1)
      (p.artifacts.mapM (uploadArtifact Store.memory policy)) m := by
    refine passes_mapM (fun a ha m' hfiles few => ?_) rfl hm
    obtain ⟨us, expands, readable⟩ := h a ha
    rw [← hfiles] at expands
    have uploaded : Passes m.files (max policy.attempts 1)
        (us.mapM (upload Store.memory policy)) m' :=
      passes_mapM (fun u hu m'' same few => passes_upload (readable u hu) same few) hfiles few
    exact uploaded.congr (runAt_uploadArtifact Store.memory policy expands)
  have activated : Passes m.files (max policy.attempts 1) (activate Store.memory policy p) m := by
    refine artifacts.bind fun dss m' few same => ?_
    refine (passes_upload (u := definitionUpload p) trivial same few).bind fun d m'' few same => ?_
    exact ⟨_, m'', rfl, few, same⟩
  obtain ⟨report, m', run, -⟩ := activated
  exact ⟨report, by rw [run]⟩

/-- Otherwise it fails and writes nothing. -/
theorem activate_of_le_failing {policy : RetryPolicy} {p : Pipeline} (h : p.ReadsAll m.files)
    (hm : max policy.attempts 1 ≤ m.failing) : ∃ e m',
      (activate Store.memory policy p).runAt m = (.error e, m') ∧ m'.objects = m.objects := by
  have artifacts : Blocks (p.artifacts.mapM (uploadArtifact Store.memory policy)) m := by
    refine blocks_mapM fun a ha => ?_
    obtain ⟨us, expands, readable⟩ := h a ha
    have blocked : Blocks (us.mapM (upload Store.memory policy)) m :=
      blocks_mapM fun u hu => .inr (upload_of_le_failing policy (readable u hu) rfl hm)
    exact blocked.congr (runAt_uploadArtifact Store.memory policy expands)
  obtain ⟨e, m', run, same⟩ :=
    upload_of_le_failing policy (u := definitionUpload p) trivial rfl hm
  obtain ⟨dss, nothing⟩ | ⟨e', m'', failed, kept⟩ := artifacts
  · refine ⟨e, m', ?_, same⟩
    exact (runAt_bind_of_ok nothing _).trans (runAt_bind_of_error run _)
  · exact ⟨e', m'', runAt_bind_of_error failed _, kept⟩

end memory

/-! ### Activation -/

/-- The plan of an activation as far as it was made: the uploads of the artifacts that were reached,
and behind those of all artifacts the definition. -/
def planOf (p : Pipeline) (gs : List Reached) : List Upload :=
  allUploads gs ++ if gs.length = p.artifacts.length then [definitionUpload p] else []

/-- An activation on any store: artifacts that were reached, the transfers for the definition, and
the result. -/
structure Activates (store : Store σ) (policy : RetryPolicy) (p : Pipeline) (s : σ)
    (gs : List Reached) (last : List Transfer) (r : Except ActivationError ActivationReport) :
    Prop where
  reaches : Reaches store s p.artifacts gs
  performs : Performs store policy (activate store policy p) (activate store.logged policy p) s r
    (planOf p gs) (allTransfers gs ++ last)
  /-- The definition is tried behind all artifacts only. -/
  definition : last = [] ∨ gs.length = p.artifacts.length ∧
    Complete (allUploads gs) (allTransfers gs) ∧ last.map (·.upload) = [definitionUpload p]
  succeeds_iff : (∃ report, r = .ok report) ↔
    gs.length = p.artifacts.length ∧ Complete (planOf p gs) (allTransfers gs ++ last)
  report : ∀ report, r = .ok report → report.uploaded = (allUploads gs).map (·.destination) ∧
    report.definition = p.paths.definition

theorem not_ok_of_error {e : ActivationError} :
    ¬∃ report, (.error e : Except ActivationError ActivationReport) = .ok report := by
  rintro ⟨report, h⟩
  cases h

/-- An activation that stops at an artifact. -/
theorem activates_of_stopped {store : Store σ} {policy : RetryPolicy} {p : Pipeline} {s : σ}
    {gs : List Reached} {e : ActivationError} (reaches : Reaches store s p.artifacts gs)
    (stopped : Performs store policy (p.artifacts.mapM (uploadArtifact store policy))
      (p.artifacts.mapM (uploadArtifact store.logged policy)) s (.error e) (allUploads gs)
      (allTransfers gs))
    (why : gs.length < p.artifacts.length ∨ ∃ t ∈ allTransfers gs, ¬t.Done) :
    Activates store policy p s gs [] (.error e) where
  reaches := reaches
  performs := by
    rw [List.append_nil]
    exact stopped.bind_of_error _ _ (List.prefix_append ..)
  definition := .inl rfl
  succeeds_iff := by
    refine iff_of_false not_ok_of_error fun h => ?_
    rw [List.append_nil] at h
    rcases why with fewer | ⟨t, ht, hnot⟩
    · exact absurd h.1 (Nat.ne_of_lt fewer)
    · exact absurd (h.2.2 t ht) hnot
  report _ h := by cases h

/-- An activation that puts all artifacts, and then the definition or not. -/
theorem activates_of_artifacts {store : Store σ} {policy : RetryPolicy} {p : Pipeline} {s : σ}
    {gs : List Reached} (reaches : Reaches store s p.artifacts gs)
    (all : gs.length = p.artifacts.length)
    (artifacts : Performs store policy (p.artifacts.mapM (uploadArtifact store policy))
      (p.artifacts.mapM (uploadArtifact store.logged policy)) s
      (.ok (gs.map fun g => g.uploads.map (·.destination))) (allUploads gs) (allTransfers gs)) :
    ∃ last r, Activates store policy p s gs last r := by
  obtain ⟨t, definition⟩ := performs_upload store policy (definitionUpload p)
    (store.after s (allPuts (allTransfers gs)))
  have plan : planOf p gs = allUploads gs ++ [definitionUpload p] := by rw [planOf, if_pos all]
  have behind : gs.length = p.artifacts.length ∧ Complete (allUploads gs) (allTransfers gs) ∧
      [t].map (·.upload) = [definitionUpload p] :=
    ⟨all, artifacts.complete _ rfl, definition.progress.planned.eq_of_length rfl⟩
  cases ht : t.result with
  | error c =>
    rw [ht] at definition
    have whole : Performs store policy (activate store policy p)
        (activate store.logged policy p) s (.error (.store p.paths.definition c))
        (planOf p gs) (allTransfers gs ++ [t]) := by
      rw [plan]
      exact artifacts.bind_of_ok (definition.bind_of_error _ _ List.prefix_rfl)
    refine ⟨[t], _, reaches, whole, .inr behind, iff_of_false not_ok_of_error fun h => ?_,
      fun _ h => by cases h⟩
    have done := h.2.2 t (List.mem_append_right _ (List.mem_singleton_self t))
    rw [Transfer.Done, ht] at done
    cases done
  | ok =>
    rw [ht] at definition
    have whole : Performs store policy (activate store policy p)
        (activate store.logged policy p) s
        (.ok ⟨(gs.map fun g => g.uploads.map (·.destination)).flatten, p.paths.definition⟩)
        (planOf p gs) (allTransfers gs ++ [t]) := by
      rw [plan]
      exact artifacts.bind_of_ok (definition.bind_pure _)
    refine ⟨[t], _, reaches, whole, .inr behind,
      iff_of_true ⟨_, rfl⟩ ⟨all, whole.complete _ rfl⟩, fun report h => ?_⟩
    cases h
    refine ⟨?_, rfl⟩
    rw [allUploads, List.map_flatMap]
    rfl

theorem exists_activates (store : Store σ) (policy : RetryPolicy) (p : Pipeline) (s : σ) :
    ∃ gs last r, Activates store policy p s gs last r := by
  obtain ⟨gs, reaches, ⟨all, artifacts⟩ | ⟨e, stopped, why⟩⟩ :=
    performs_artifacts store policy p.artifacts s
  · exact ⟨gs, activates_of_artifacts reaches all artifacts⟩
  · exact ⟨gs, [], .error e, activates_of_stopped reaches stopped why⟩

/-- Whatever a store answers, activation makes its puts for the artifacts in their order and then
for the definition, and goes on only behind a success.  On a store in memory it succeeds just when
the failures to come are fewer than the attempts of an upload, and otherwise writes nothing. -/
theorem activate_definition_last (policy : RetryPolicy) (p : Pipeline) :
    (∀ (σ : Type) (store : Store σ) (s : σ), ∃ gs last r, Activates store policy p s gs last r) ∧
    ∀ m : Memory, p.ReadsAll m.files →
      ((∃ report, ((activate Store.memory policy p).runAt m).1 = .ok report) ↔
        m.failing < max policy.attempts 1) ∧
      (¬m.failing < max policy.attempts 1 →
        ((activate Store.memory policy p).runAt m).2.objects = m.objects) := by
  refine ⟨fun σ store s => exists_activates store policy p s, fun m readable => ?_⟩
  refine ⟨⟨fun ⟨report, ok⟩ => ?_, activate_of_failing_lt readable⟩, fun many => ?_⟩
  · by_contra many
    obtain ⟨e, m', run, -⟩ := activate_of_le_failing readable (Nat.le_of_not_lt many)
    rw [run] at ok
    cases ok
  · obtain ⟨e, m', run, same⟩ := activate_of_le_failing readable (Nat.le_of_not_lt many)
    rw [run]
    exact same

/-- A pipeline that stages a file and a text. -/
def notes : Pipeline where
  name := "notes"
  version := "1"
  frequency := .oneTime
  description := none
  tags := []
  paths := ⟨.directory "etl" "src", .directory "etl" "data", .directory "etl" "logs",
    .directory "etl" "checks"⟩
  graph := ⟨[], List.nodup_nil⟩
  steps := []
  artifacts := [⟨.file "etl" "src/notes.txt", .file "notes.txt"⟩,
    ⟨.file "etl" "src/run.sh", .text "cat"⟩]

/-- A store in memory beside a local file. -/
def notesMemory (failing : Nat) : Memory where
  failing := failing
  files := { entries := [(["notes.txt"], .file "read me".toUTF8)] }

theorem activate_definition_last_notes :
    (∃ report, ((activate Store.memory { attempts := 3 } notes).runAt (notesMemory 2)).1 =
      .ok report) ∧
    ((activate Store.memory { attempts := 3 } notes).runAt (notesMemory 3)).2.objects = [] := by
  have readable (n : Nat) : notes.ReadsAll (notesMemory n).files := by
    have read := Outcome.exists_ok_of_isOk (x := (notesMemory 0).files.read "notes.txt")
      (by decide +kernel)
    intro a ha
    simp only [notes, List.mem_cons, List.not_mem_nil, or_false] at ha
    rcases ha with rfl | rfl
    · exact ⟨_, rfl, List.forall_mem_singleton.mpr read⟩
    · exact ⟨_, rfl, List.forall_mem_singleton.mpr trivial⟩
  obtain ⟨-, memory⟩ := activate_definition_last { attempts := 3 } notes
  exact ⟨(memory (notesMemory 2) (readable 2)).1.mpr (by decide),
    (memory (notesMemory 3) (readable 3)).2 (by decide)⟩

end EtlFlow.Pipeline
