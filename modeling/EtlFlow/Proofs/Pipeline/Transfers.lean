import EtlFlow.Pipeline.Activation
import EtlFlow.Proofs.Files.Tree
import EtlFlow.Proofs.Outcome
import EtlFlow.Proofs.Storage.Puts
/-!
# Transfers of staged files

The uploads of artifacts on a store that answers as it likes.  A run makes one transfer for each
upload, in the order of a plan, and the first transfer that fails is the last one (`Performs`).  The
plan for artifacts is made as they are reached: a directory is expanded when its turn comes
(`Reaches`).
-/

namespace EtlFlow.Pipeline

open Storage

variable {σ : Type} {α β : Type}

/-! ### Runs on a store -/

/-- The result of an activity that starts in a state, and the state it leaves. -/
def OnStore.runAt (x : OnStore σ α) (s : σ) : Except ActivationError α × σ := x.run s

theorem runAt_bind_of_ok {x : OnStore σ α} {s t : σ} {a : α} (h : x.runAt s = (.ok a, t))
    (f : α → OnStore σ β) : OnStore.runAt (x >>= f) s = (f a).runAt t := by
  simp only [OnStore.runAt, ExceptT.run, bind, ExceptT.bind, ExceptT.mk, StateT.bind] at h ⊢
  rw [h]
  rfl

theorem runAt_bind_of_error {x : OnStore σ α} {s t : σ} {e : ActivationError}
    (h : x.runAt s = (.error e, t)) (f : α → OnStore σ β) :
    OnStore.runAt (x >>= f) s = (.error e, t) := by
  simp only [OnStore.runAt, ExceptT.run, bind, ExceptT.bind, ExceptT.mk, StateT.bind] at h ⊢
  rw [h]
  rfl

theorem runAt_pure (a : α) (s : σ) : OnStore.runAt (pure a : OnStore σ α) s = (.ok a, s) := rfl

/-! ### Transfers -/

/-- An upload, the puts it took and what it came to. -/
structure Transfer where
  upload : Upload
  puts : List Put
  result : Except StoreError Unit

namespace Transfer

/-- The transfer succeeded. -/
def Done (t : Transfer) : Prop := t.result = .ok ()

/-- The transfer keeps to a policy: it puts to its destination only, again only behind a failure for
a moment, and not more often than the policy says. -/
def Follows (policy : RetryPolicy) (t : Transfer) : Prop :=
  Tried t.upload.destination (max policy.attempts 1) t.puts t.result

/-- The puts of transfers, one transfer behind the other. -/
def allPuts (ts : List Transfer) : List Put := ts.flatMap (·.puts)

theorem allPuts_append (ts us : List Transfer) : allPuts (ts ++ us) = allPuts ts ++ allPuts us :=
  List.flatMap_append

end Transfer

open Transfer (allPuts allPuts_append)

variable {policy : RetryPolicy} {plan more : List Upload} {ts us : List Transfer}

/-- Transfers that follow a plan until one of them fails. -/
structure Progress (policy : RetryPolicy) (plan : List Upload) (ts : List Transfer) : Prop where
  planned : ts.map (·.upload) <+: plan
  follows : ∀ t ∈ ts, t.Follows policy
  done : ∀ t ∈ ts.dropLast, t.Done

/-- The whole plan is done. -/
def Complete (plan : List Upload) (ts : List Transfer) : Prop :=
  ts.map (·.upload) = plan ∧ ∀ t ∈ ts, t.Done

theorem progress_nil : Progress policy plan [] where
  planned := List.nil_prefix
  follows := by simp
  done := by simp

theorem complete_nil : Complete [] [] := ⟨rfl, by simp⟩

theorem Progress.mono (h : Progress policy plan ts) (hp : plan <+: more) :
    Progress policy more ts where
  planned := h.planned.trans hp
  follows := h.follows
  done := h.done

/-- Work on another plan begins when the first one is done. -/
theorem Progress.append (h : Progress policy plan ts) (hc : Complete plan ts)
    (g : Progress policy more us) : Progress policy (plan ++ more) (ts ++ us) where
  planned := by
    rw [List.map_append, hc.1]
    exact (List.prefix_append_right_inj plan).mpr g.planned
  follows := List.forall_mem_append.mpr ⟨h.follows, g.follows⟩
  done := by
    intro t ht
    cases us with
    | nil => exact hc.2 t (List.dropLast_subset _ (by rwa [List.append_nil] at ht))
    | cons u us =>
      rw [List.dropLast_append_of_ne_nil (List.cons_ne_nil u us), List.mem_append] at ht
      exact ht.elim (hc.2 t) (g.done t)

theorem Complete.append (h : Complete plan ts) (g : Complete more us) :
    Complete (plan ++ more) (ts ++ us) :=
  ⟨by rw [List.map_append, h.1, g.1], List.forall_mem_append.mpr ⟨h.2, g.2⟩⟩

/-! ### Runs with their transfers -/

/-- From `s` on, `x` comes to `r` and makes the transfers `ts` for the uploads of a plan, all of
them where it succeeds.  `y` is the same activity on the logged store. -/
structure Performs (store : Store σ) (policy : RetryPolicy) (x : OnStore σ α)
    (y : OnStore (σ × List Put) α) (s : σ) (r : Except ActivationError α) (plan : List Upload)
    (ts : List Transfer) : Prop where
  run : x.runAt s = (r, store.after s (allPuts ts))
  log (log : List Put) : y.runAt (s, log) = (r, store.after s (allPuts ts), log ++ allPuts ts)
  progress : Progress policy plan ts
  complete : ∀ a, r = .ok a → Complete plan ts

variable {store : Store σ} {x : OnStore σ α} {y : OnStore (σ × List Put) α} {s : σ}

theorem Performs.bind_of_ok {a : α} {r : Except ActivationError β} {f : α → OnStore σ β}
    {g : α → OnStore (σ × List Put) β} (h : Performs store policy x y s (.ok a) plan ts)
    (hf : Performs store policy (f a) (g a) (store.after s (allPuts ts)) r more us) :
    Performs store policy (x >>= f) (y >>= g) s r (plan ++ more) (ts ++ us) where
  run := by rw [runAt_bind_of_ok h.run, hf.run, allPuts_append, Store.after_append]
  log l := by
    rw [runAt_bind_of_ok (h.log l), hf.log, allPuts_append, Store.after_append, List.append_assoc]
  progress := h.progress.append (h.complete a rfl) hf.progress
  complete b hb := (h.complete a rfl).append (hf.complete b hb)

theorem Performs.bind_of_error {e : ActivationError}
    (h : Performs store policy x y s (.error e) plan ts) (f : α → OnStore σ β)
    (g : α → OnStore (σ × List Put) β) (hp : plan <+: more) :
    Performs store policy (x >>= f) (y >>= g) s (.error e) more ts where
  run := runAt_bind_of_error h.run f
  log l := runAt_bind_of_error (h.log l) g
  progress := h.progress.mono hp
  complete b hb := by cases hb

theorem performs_pure (a : α) (s : σ) :
    Performs store policy (pure a) (pure a) s (.ok a) [] [] where
  run := rfl
  log l := by
    rw [runAt_pure, allPuts, List.flatMap_nil, List.append_nil]
    rfl
  progress := progress_nil
  complete _ _ := complete_nil

/-- What comes behind a run may change its value. -/
theorem Performs.bind_pure {a : α} (h : Performs store policy x y s (.ok a) plan ts) (f : α → β) :
    Performs store policy (x >>= fun a => pure (f a)) (y >>= fun a => pure (f a)) s (.ok (f a)) plan
      ts := by
  have run := h.bind_of_ok (f := fun a => pure (f a)) (g := fun a => pure (f a))
    (performs_pure (f a) _)
  rwa [List.append_nil, List.append_nil] at run

/-! ### Uploads -/

/-- One try of an upload puts once, unless the file cannot be read. -/
theorem putsOnce_put (store : Store σ) (u : Upload) :
    PutsOnce store u.destination (put store u) (put store.logged u) := by
  intro s
  obtain ⟨body, dest⟩ := u
  cases body with
  | text text => exact .inl ⟨⟨text.toUTF8, dest, _⟩, rfl, rfl, ⟨rfl, fun _ => rfl⟩⟩
  | file path =>
    cases read : (store.files s).read path with
    | ok content =>
      have run : put store ⟨.file path, dest⟩ s = store.put content dest s := by
        simp only [put, Store.putFile, read]
      refine .inl ⟨⟨content, dest, (store.put content dest s).1⟩, rfl, by rw [run], ?_⟩
      refine .of_eq (a := (store.put content dest s).1) (by rw [run]; rfl) fun log => ?_
      simp only [put, Store.putFile, Store.logged, read]
      rfl
    | error e =>
      have run : put store ⟨.file path, dest⟩ s = (.error (.io e), s) := by
        simp only [put, Store.putFile, read]
      refine .inr ⟨⟨.io e, by rw [run], rfl⟩, ?_⟩
      refine .of_eq (a := .error (.io e)) run fun log => ?_
      simp only [put, Store.putFile, Store.logged, read, List.append_nil]
      rfl

/-- An upload comes to what its calls under the policy come to. -/
theorem runAt_upload (store : Store σ) {u : Upload} {s t : σ} {r : Except StoreError Unit}
    (h : RetryPolicy.outcome (policy.callAgain StoreError.isTransient (put store u)
      (policy.attempts - 1) 0 s) = (r, t)) : (upload store policy u).runAt s =
      ((r.map fun _ => u.destination).mapError (.store u.destination), t) := by
  cases h
  rfl

/-- An upload with retries. -/
theorem performs_upload (store : Store σ) (policy : RetryPolicy) (u : Upload) (s : σ) :
    ∃ t : Transfer, Performs store policy (upload store policy u) (upload store.logged policy u) s
      ((t.result.map fun _ => u.destination).mapError (.store u.destination)) [u] [t] := by
  obtain ⟨puts, log, tried⟩ :=
    RetryPolicy.makesTried_callAgain (putsOnce_put store u) policy (policy.attempts - 1) 0 s
  have attempts : policy.attempts - 1 + 1 = max policy.attempts 1 := by omega
  rw [attempts] at tried
  refine ⟨⟨u, puts, (policy.retry StoreError.isTransient (put store u) s).result⟩, ?_, ?_,
    ⟨List.prefix_rfl, List.forall_mem_singleton.mpr tried, by simp⟩, fun d hd => ⟨rfl, ?_⟩⟩
  · rw [allPuts, List.flatMap_singleton]
    exact runAt_upload store log.run_eq
  · intro l
    rw [allPuts, List.flatMap_singleton]
    exact runAt_upload store.logged (log.log_eq l)
  · obtain ⟨_, ok, -⟩ := Outcome.map_eq_ok_iff.mp (Outcome.mapError_eq_ok_iff.mp hd)
    exact List.forall_mem_singleton.mpr ok

/-- Uploads one after another, up to the first that fails. -/
theorem performs_uploads (store : Store σ) (policy : RetryPolicy) (plan : List Upload) (s : σ) :
    ∃ ts, Performs store policy (plan.mapM (upload store policy))
        (plan.mapM (upload store.logged policy)) s (.ok (plan.map (·.destination))) plan ts ∨
      ∃ e, Performs store policy (plan.mapM (upload store policy))
        (plan.mapM (upload store.logged policy)) s (.error e) plan ts ∧ ∃ t ∈ ts, ¬t.Done := by
  induction plan generalizing s with
  | nil => exact ⟨[], .inl (performs_pure [] s)⟩
  | cons u plan ih =>
    obtain ⟨t, first⟩ := performs_upload store policy u s
    rw [List.mapM_cons, List.mapM_cons]
    cases ht : t.result with
    | error c =>
      rw [ht] at first
      refine ⟨[t], .inr ⟨_, first.bind_of_error _ _ (List.prefix_append [u] plan), t,
        List.mem_singleton_self t, fun done => ?_⟩⟩
      rw [Transfer.Done, ht] at done
      cases done
    | ok =>
      rw [ht] at first
      obtain ⟨ts, rest | ⟨e, rest, failed⟩⟩ := ih (store.after s (allPuts [t]))
      · exact ⟨t :: ts, .inl (first.bind_of_ok (rest.bind_pure _))⟩
      · refine ⟨t :: ts, .inr ⟨e, first.bind_of_ok (rest.bind_of_error _ _ List.prefix_rfl), ?_⟩⟩
        obtain ⟨t', ht', hnot⟩ := failed
        exact ⟨t', List.mem_cons_of_mem t ht', hnot⟩

/-! ### Artifacts -/

/-- The uploads of an artifact: one for a text or a file, and for a directory one for each file
below it, in the order of their names. -/
inductive Expands (files : Files.Tree) : Step.Artifact → List Upload → Prop where
  | text (text : String) (dest : Location) : Expands files ⟨dest, .text text⟩ [⟨.text text, dest⟩]
  | file (path : String) (dest : Location) : Expands files ⟨dest, .file path⟩ [⟨.file path, dest⟩]
  | single {path : String} {place : Files.Place} {content : ByteArray} (dest : Location) :
      files.locate path = .ok (place, .file content) →
      Expands files ⟨dest, .directory path⟩ [⟨.file path, dest.joinFile ""⟩]
  | directory {path : String} {place : Files.Place} (dest : Location) (below : List Files.Place) :
      files.locate path = .ok (place, .directory) →
      (below.Pairwise fun a b => Files.Tree.placeLE a b = true) →
      below.Perm ((files.entries.filter (Files.Tree.isBelow place)).map (·.1.drop place.length)) →
      Expands files ⟨dest, .directory path⟩ (below.map fun b =>
        ⟨.file (Files.pathBelow path b), dest.joinFile ("/".intercalate b)⟩)

theorem expands_of_uploads {files : Files.Tree} {a : Step.Artifact} {us : List Upload}
    (h : uploads files a = .ok us) : Expands files a us := by
  obtain ⟨dest, text | path | path⟩ := a
  · cases h
    exact .text text dest
  · cases h
    exact .file path dest
  · simp only [uploads] at h
    split at h
    · cases h
    · cases h
      exact .single dest (by assumption)
    · rename_i place located
      cases h
      have listed := Expands.directory dest (files.placesBelow place) located
        (files.pairwise_placesBelow place) (files.perm_placesBelow place)
      rwa [Files.Tree.placesBelow, List.map_map] at listed

/-- An artifact that was reached: its uploads, and the transfers made for them. -/
structure Reached where
  uploads : List Upload
  transfers : List Transfer

/-- The first of the artifacts, expanded one after another.  Each is expanded in the files that the
puts for those before it left. -/
inductive Reaches (store : Store σ) : σ → List Step.Artifact → List Reached → Prop where
  | stop (s : σ) (as : List Step.Artifact) : Reaches store s as []
  | next {s : σ} {a : Step.Artifact} {as : List Step.Artifact} {g : Reached} {gs : List Reached} :
      Expands (store.files s) a g.uploads → g.transfers.map (·.upload) <+: g.uploads →
      Reaches store (store.after s (allPuts g.transfers)) as gs →
      Reaches store s (a :: as) (g :: gs)

theorem Performs.congr {x' : OnStore σ α} {y' : OnStore (σ × List Put) α}
    {r : Except ActivationError α} (h : Performs store policy x y s r plan ts)
    (hx : x'.runAt s = x.runAt s) (hy : ∀ l, y'.runAt (s, l) = y.runAt (s, l)) :
    Performs store policy x' y' s r plan ts where
  run := hx.trans h.run
  log l := (hy l).trans (h.log l)
  progress := h.progress
  complete := h.complete

theorem runAt_uploadArtifact (store : Store σ) {s : σ} {a : Step.Artifact} {plan : List Upload}
    (policy : RetryPolicy) (h : uploads (store.files s) a = .ok plan) :
    (uploadArtifact store policy a).runAt s =
      OnStore.runAt (plan.mapM (upload store policy)) s := by
  have lifted : OnStore.runAt (liftM (uploads (store.files s) a) : OnStore σ (List Upload)) s =
      (.ok plan, s) := by
    rw [h]
    rfl
  exact (runAt_bind_of_ok (x := (get : OnStore σ σ)) rfl _).trans (runAt_bind_of_ok lifted _)

theorem runAt_uploadArtifact_of_error (store : Store σ) {s : σ} {a : Step.Artifact}
    {e : ActivationError} (policy : RetryPolicy) (h : uploads (store.files s) a = .error e) :
    (uploadArtifact store policy a).runAt s = (.error e, s) := by
  have lifted : OnStore.runAt (liftM (uploads (store.files s) a) : OnStore σ (List Upload)) s =
      (.error e, s) := by
    rw [h]
    rfl
  exact (runAt_bind_of_ok (x := (get : OnStore σ σ)) rfl _).trans (runAt_bind_of_error lifted _)

/-- An artifact that cannot be expanded is not put. -/
theorem performs_uploadArtifact_of_error (store : Store σ) {s : σ} {a : Step.Artifact}
    {e : ActivationError} (policy : RetryPolicy) (h : uploads (store.files s) a = .error e) :
    Performs store policy (uploadArtifact store policy a) (uploadArtifact store.logged policy a) s
      (.error e) [] [] where
  run := runAt_uploadArtifact_of_error store policy h
  log l := by
    have logged := runAt_uploadArtifact_of_error store.logged (s := (s, l)) policy h
    rw [logged, allPuts, List.flatMap_nil, List.append_nil]
    rfl
  progress := progress_nil
  complete _ h := by cases h

theorem performs_uploadArtifact (store : Store σ) {s : σ} {a : Step.Artifact} {plan : List Upload}
    (policy : RetryPolicy) (h : uploads (store.files s) a = .ok plan) :
    ∃ ts, Performs store policy (uploadArtifact store policy a)
        (uploadArtifact store.logged policy a) s (.ok (plan.map (·.destination))) plan ts ∨
      ∃ e, Performs store policy (uploadArtifact store policy a)
        (uploadArtifact store.logged policy a) s (.error e) plan ts ∧ ∃ t ∈ ts, ¬t.Done := by
  have same := runAt_uploadArtifact store policy h
  have logged (l : List Put) := runAt_uploadArtifact store.logged (s := (s, l)) policy h
  obtain ⟨ts, done | ⟨e, stopped, failed⟩⟩ := performs_uploads store policy plan s
  · exact ⟨ts, .inl (done.congr same logged)⟩
  · exact ⟨ts, .inr ⟨e, stopped.congr same logged, failed⟩⟩

/-- The uploads of artifacts that were reached. -/
def allUploads (gs : List Reached) : List Upload := gs.flatMap (·.uploads)

/-- The transfers made for artifacts. -/
def allTransfers (gs : List Reached) : List Transfer := gs.flatMap (·.transfers)

/-- Artifacts one after another, up to the first that cannot be expanded or uploaded. -/
theorem performs_artifacts (store : Store σ) (policy : RetryPolicy) (as : List Step.Artifact)
    (s : σ) : ∃ gs, Reaches store s as gs ∧
      ((gs.length = as.length ∧ Performs store policy (as.mapM (uploadArtifact store policy))
        (as.mapM (uploadArtifact store.logged policy)) s
        (.ok (gs.map fun g => g.uploads.map (·.destination))) (allUploads gs) (allTransfers gs)) ∨
      ∃ e, Performs store policy (as.mapM (uploadArtifact store policy))
        (as.mapM (uploadArtifact store.logged policy)) s (.error e) (allUploads gs)
        (allTransfers gs) ∧
        (gs.length < as.length ∨ ∃ t ∈ allTransfers gs, ¬t.Done)) := by
  induction as generalizing s with
  | nil => exact ⟨[], .stop s [], .inl ⟨rfl, performs_pure [] s⟩⟩
  | cons a as ih =>
    rw [List.mapM_cons, List.mapM_cons]
    cases hu : uploads (store.files s) a with
    | error e =>
      have stop := performs_uploadArtifact_of_error store policy hu
      exact ⟨[], .stop s _, .inr ⟨e, stop.bind_of_error _ _ List.prefix_rfl,
        .inl (Nat.zero_lt_succ _)⟩⟩
    | ok plan =>
      have expands := expands_of_uploads hu
      obtain ⟨ts, first | ⟨e, first, failed⟩⟩ := performs_uploadArtifact store policy hu
      · have planned := first.progress.planned
        obtain ⟨gs, reaches, ⟨all, rest⟩ | ⟨e, rest, why⟩⟩ := ih (store.after s (allPuts ts))
        · exact ⟨⟨plan, ts⟩ :: gs, .next expands planned reaches,
            .inl ⟨congrArg (· + 1) all, first.bind_of_ok (rest.bind_pure _)⟩⟩
        · refine ⟨⟨plan, ts⟩ :: gs, .next expands planned reaches,
            .inr ⟨e, first.bind_of_ok (rest.bind_of_error _ _ List.prefix_rfl), ?_⟩⟩
          refine why.imp Nat.succ_lt_succ ?_
          rintro ⟨t, ht, hnot⟩
          exact ⟨t, List.mem_append_right ts ht, hnot⟩
      · refine ⟨[⟨plan, ts⟩], .next expands first.progress.planned (.stop _ as),
          .inr ⟨e, ?_, .inr ?_⟩⟩
        · rw [allUploads, allTransfers, List.flatMap_singleton, List.flatMap_singleton]
          exact first.bind_of_error _ _ List.prefix_rfl
        · rw [allTransfers, List.flatMap_singleton]
          exact failed

end EtlFlow.Pipeline
