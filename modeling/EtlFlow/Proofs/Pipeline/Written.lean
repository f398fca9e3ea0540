import EtlFlow.Proofs.Pipeline.Activation
/-!
# What an activation writes

A successful activation on the store in memory leaves the objects that its uploads bring, one after
another (`writes_activate`).  Where no two uploads go to one URI, each object is there with the
content of its upload (`Writes.lookup_of_mem`).
-/

namespace EtlFlow.Storage.Memory

/-! ### Objects by URI -/

/-- The content of the first object of a URI. -/
def lookup (uri : String) (objects : List (String × ByteArray)) : Option ByteArray :=
  (objects.find? (·.1 == uri)).map (·.2)

variable {uri other : String} {content : ByteArray} {objects : List (String × ByteArray)}

theorem lookup_cons_self : lookup uri ((uri, content) :: objects) = some content := by
  simp [lookup]

theorem lookup_cons_ne {object : String × ByteArray} (h : object.1 ≠ uri) :
    lookup uri (object :: objects) = lookup uri objects := by
  simp [lookup, h]

theorem lookup_insert_self : lookup uri (insert uri content objects) = some content := by
  induction objects with
  | nil => exact lookup_cons_self
  | cons object objects ih =>
    rw [insert]
    split
    · exact lookup_cons_self
    · rename_i hne
      split
      · exact lookup_cons_self
      · rw [lookup_cons_ne hne, ih]

theorem lookup_insert_ne (h : uri ≠ other) :
    lookup other (insert uri content objects) = lookup other objects := by
  induction objects with
  | nil => exact lookup_cons_ne h
  | cons object objects ih =>
    rw [insert]
    split
    · rename_i same
      rw [lookup_cons_ne h, lookup_cons_ne (by rw [same]; exact h)]
    · split
      · exact lookup_cons_ne h
      · obtain ⟨first, held⟩ := object
        by_cases same : first = other
        · rw [same, lookup_cons_self, lookup_cons_self]
        · rw [lookup_cons_ne same, lookup_cons_ne same, ih]

end EtlFlow.Storage.Memory

namespace EtlFlow.Pipeline

open Storage

/-! ### Writes -/

/-- The content of what is uploaded. -/
def Upload.content (files : Files.Tree) (u : Upload) : Except Files.IoError ByteArray :=
  match u.body with
  | .text s => .ok s.toUTF8
  | .file path => files.read path

/-- Uploads, one after another, bring objects to others. -/
inductive Writes (files : Files.Tree) :
    List Upload → List (String × ByteArray) → List (String × ByteArray) → Prop
  | nil (objects : List (String × ByteArray)) : Writes files [] objects objects
  | cons {u : Upload} {us : List Upload} {content : ByteArray}
      {objects later : List (String × ByteArray)} : u.content files = .ok content →
      Writes files us (Memory.insert u.destination.uri content objects) later →
      Writes files (u :: us) objects later

variable {files : Files.Tree} {us vs : List Upload}
  {objects between later : List (String × ByteArray)}

theorem Writes.append (h : Writes files us objects between) (h' : Writes files vs between later) :
    Writes files (us ++ vs) objects later := by
  induction h with
  | nil => exact h'
  | cons content _ ih => exact .cons content (ih h')

/-- Objects to which nothing is uploaded stay. -/
theorem Writes.lookup_of_notMem (h : Writes files us objects later) {uri : String}
    (hu : uri ∉ us.map (·.destination.uri)) :
    Memory.lookup uri later = Memory.lookup uri objects := by
  induction h with
  | nil => rfl
  | cons _ _ ih =>
    rw [List.map_cons, List.mem_cons, not_or] at hu
    rw [ih hu.2, Memory.lookup_insert_ne (Ne.symm hu.1)]

/-- With URIs of their own all uploads are there in the end. -/
theorem Writes.lookup_of_mem (h : Writes files us objects later)
    (hus : (us.map (·.destination.uri)).Nodup) {u : Upload} (hu : u ∈ us) :
    ∃ content, u.content files = .ok content ∧
      Memory.lookup u.destination.uri later = some content := by
  induction h with
  | nil => cases hu
  | cons content rest ih =>
    rw [List.map_cons, List.nodup_cons] at hus
    rcases List.mem_cons.mp hu with rfl | hu
    · exact ⟨_, content, by rw [rest.lookup_of_notMem hus.1, Memory.lookup_insert_self]⟩
    · exact ih hus.2 hu

/-! ### Runs that succeed -/

theorem runAt_bind_eq_ok {σ α β : Type} {x : OnStore σ α} {f : α → OnStore σ β} {s t : σ} {b : β}
    (h : OnStore.runAt (x >>= f) s = (.ok b, t)) :
    ∃ a s', x.runAt s = (.ok a, s') ∧ (f a).runAt s' = (.ok b, t) := by
  rcases hx : x.runAt s with ⟨_ | a, s'⟩
  · rw [runAt_bind_of_error hx] at h
    cases h
  · rw [runAt_bind_of_ok hx] at h
    exact ⟨a, s', rfl, h⟩

variable {α β : Type} {policy : RetryPolicy} {m m' : Memory}

/-- A run of an upload that wrote the object, or failed and wrote nothing. -/
def WritesOnce (u : Upload) (m : Memory) (run : Except StoreError Unit × Memory) : Prop :=
  run.2.files = m.files ∧
    match run.1 with
    | .ok _ => Writes m.files [u] m.objects run.2.objects
    | .error _ => run.2.objects = m.objects

theorem writesOnce_memory {u : Upload} {content : ByteArray} (h : u.content m.files = .ok content) :
    WritesOnce u m (m.put content u.destination) := by
  cases hf : m.failing with
  | zero =>
    rw [Memory.put, hf]
    exact ⟨rfl, .cons h (.nil _)⟩
  | succ n =>
    rw [Memory.put, hf]
    exact ⟨rfl, rfl⟩

theorem writesOnce_put (u : Upload) (m : Memory) : WritesOnce u m (put Store.memory u m) := by
  obtain ⟨text | path, dest⟩ := u
  · exact writesOnce_memory rfl
  · cases read : m.files.read path with
    | ok content =>
      have once : WritesOnce ⟨.file path, dest⟩ m (m.put content dest) := writesOnce_memory read
      simpa only [put, Store.putFile, Store.memory, read] using once
    | error e =>
      simp only [put, Store.putFile, Store.memory, read]
      exact ⟨rfl, rfl⟩

/-- By induction on the calls: those that fail for a moment write nothing. -/
theorem writesOnce_callAgain (u : Upload) (policy : RetryPolicy) (more n : Nat) (m : Memory) :
    WritesOnce u m (RetryPolicy.outcome
      (policy.callAgain StoreError.isTransient (put Store.memory u) more n m)) := by
  induction more generalizing n m with
  | zero => exact writesOnce_put u m
  | succ more ih =>
    have once := writesOnce_put u m
    rcases hput : put Store.memory u m with ⟨e | _, t⟩
    · by_cases transient : e.isTransient = true
      · rw [hput] at once
        obtain ⟨files, objects⟩ := once
        have later := ih (n + 1) t
        rw [RetryPolicy.outcome_of_again more n hput transient]
        unfold WritesOnce at later ⊢
        rwa [files, objects] at later
      · rw [RetryPolicy.outcome_of_stop n hput (.inr fun e' he => ?_), ← hput]
        · exact once
        · cases he
          exact Bool.eq_false_iff.mpr transient
    · rw [RetryPolicy.outcome_of_stop n hput (.inr fun e he => by cases he), ← hput]
      exact once

/-- From `m` on, a success of the activity makes the uploads of a plan. -/
def WritesPlan (x : OnStore Memory α) (m : Memory) (plan : List Upload) : Prop :=
  ∀ a m', x.runAt m = (.ok a, m') → m'.files = m.files ∧ Writes m.files plan m.objects m'.objects

theorem writesPlan_upload (policy : RetryPolicy) (u : Upload) (m : Memory) :
    WritesPlan (upload Store.memory policy u) m [u] := by
  intro d m' h
  have once := writesOnce_callAgain u policy (policy.attempts - 1) 0 m
  rcases hrun : RetryPolicy.outcome (policy.callAgain StoreError.isTransient (put Store.memory u)
    (policy.attempts - 1) 0 m) with ⟨e | _, t⟩
  · rw [runAt_upload Store.memory hrun] at h
    cases h
  · rw [runAt_upload Store.memory hrun] at h
    cases h
    rwa [hrun] at once

theorem writesPlan_pure (a : α) (m : Memory) : WritesPlan (pure a) m [] := by
  intro b m' h
  cases h
  exact ⟨rfl, .nil _⟩

theorem WritesPlan.bind {x : OnStore Memory α} {f : α → OnStore Memory β} {us vs : List Upload}
    (h : WritesPlan x m us) (hf : ∀ a m', m'.files = m.files → WritesPlan (f a) m' vs) :
    WritesPlan (x >>= f) m (us ++ vs) := by
  intro b m' hb
  obtain ⟨a, between, hx, hfa⟩ := runAt_bind_eq_ok hb
  obtain ⟨files, first⟩ := h a between hx
  obtain ⟨files', rest⟩ := hf a between files b m' hfa
  rw [files] at files' rest
  exact ⟨files', first.append rest⟩

/-- What comes behind a run may change its value. -/
theorem WritesPlan.bind_pure {x : OnStore Memory α} {us : List Upload} (h : WritesPlan x m us)
    (f : α → β) : WritesPlan (x >>= fun a => pure (f a)) m us := by
  have run := h.bind fun a m' _ => writesPlan_pure (f a) m'
  rwa [List.append_nil] at run

theorem writesPlan_uploads (policy : RetryPolicy) (plan : List Upload) (m : Memory) :
    WritesPlan (plan.mapM (upload Store.memory policy)) m plan := by
  induction plan generalizing m with
  | nil => exact writesPlan_pure [] m
  | cons u plan ih =>
    rw [List.mapM_cons, ← List.singleton_append]
    exact (writesPlan_upload policy u m).bind fun d m' _ => (ih m').bind_pure (d :: ·)

/-- The uploads of artifacts, each in the files that the store has. -/
def UploadsOf (files : Files.Tree) (as : List Step.Artifact) (plans : List (List Upload)) : Prop :=
  List.Forall₂ (fun a us => uploads files a = .ok us) as plans

theorem UploadsOf.exists_mem {as : List Step.Artifact} {plans : List (List Upload)}
    (h : UploadsOf files as plans) {a : Step.Artifact} (ha : a ∈ as) :
    ∃ us ∈ plans, uploads files a = .ok us := by
  induction h with
  | nil => cases ha
  | cons expands _ ih =>
    rcases List.mem_cons.mp ha with rfl | ha
    · exact ⟨_, List.mem_cons_self, expands⟩
    · obtain ⟨us, hus, expands⟩ := ih ha
      exact ⟨us, List.mem_cons_of_mem _ hus, expands⟩

theorem writes_artifacts {as : List Step.Artifact} {dss : List (List Location)}
    (h : OnStore.runAt (as.mapM (uploadArtifact Store.memory policy)) m = (.ok dss, m')) :
    ∃ plans, UploadsOf m.files as plans ∧ m'.files = m.files ∧
      Writes m.files plans.flatten m.objects m'.objects := by
  induction as generalizing m dss with
  | nil =>
    cases h
    exact ⟨[], .nil, rfl, .nil _⟩
  | cons a as ih =>
    rw [List.mapM_cons] at h
    obtain ⟨ds, between, first, h⟩ := runAt_bind_eq_ok h
    obtain ⟨dss', _, rest, h⟩ := runAt_bind_eq_ok h
    cases h
    cases expands : uploads m.files a with
    | error e =>
      rw [runAt_uploadArtifact_of_error Store.memory policy expands] at first
      cases first
    | ok us =>
      rw [runAt_uploadArtifact Store.memory policy expands] at first
      obtain ⟨files, writes⟩ := writesPlan_uploads policy us m ds between first
      obtain ⟨plans, listed, files', writes'⟩ := ih rest
      rw [files] at listed files' writes'
      exact ⟨us :: plans, .cons expands listed, files', writes.append writes'⟩

/-- A successful activation writes what all artifacts bring, and then the definition. -/
theorem writes_activate {p : Pipeline} {report : ActivationReport}
    (h : (activate Store.memory policy p).runAt m = (.ok report, m')) :
    ∃ plans, UploadsOf m.files p.artifacts plans ∧
      Writes m.files (plans.flatten ++ [definitionUpload p]) m.objects m'.objects := by
  obtain ⟨dss, between, artifacts, h⟩ := runAt_bind_eq_ok h
  obtain ⟨d, _, definition, h⟩ := runAt_bind_eq_ok h
  cases h
  obtain ⟨plans, listed, files, writes⟩ := writes_artifacts artifacts
  obtain ⟨-, last⟩ := writesPlan_upload policy (definitionUpload p) between d m' definition
  rw [files] at last
  exact ⟨plans, listed, writes.append last⟩

end EtlFlow.Pipeline
