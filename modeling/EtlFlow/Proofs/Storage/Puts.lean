import EtlFlow.Storage.Retry
import EtlFlow.Storage.Store
import Mathlib.Tactic.Common
/-!
# The puts of a run

`Store.logged` is a store together with the list of the puts that reached it.  A run on the logged
store is the run on the store itself, and the log grows by the puts of the run (`Logs`).  A call
under a policy of retries makes a bounded number of puts, all but the last of which failed for a
moment (`makesTried_callAgain`).
-/

namespace EtlFlow.Storage

/-- A put that reached a store, and what the store answered. -/
structure Put where
  content : ByteArray
  destination : Location
  answer : Except StoreError Unit

variable {σ α : Type}

/-- The store with a list of the puts made so far. -/
def Store.logged (store : Store σ) : Store (σ × List Put) where
  put content dest s :=
    let r := store.put content dest s.1
    (r.1, r.2, s.2 ++ [⟨content, dest, r.1⟩])
  holds s := store.holds s.1
  place := store.place
  files s := store.files s.1

/-- The state that puts lead to. -/
def Store.after (store : Store σ) (s : σ) (puts : List Put) : σ :=
  puts.foldl (fun s q => (store.put q.content q.destination s).2) s

theorem Store.after_append (store : Store σ) (s : σ) (puts more : List Put) :
    store.after s (puts ++ more) = store.after (store.after s puts) more :=
  List.foldl_append

/-- From `s` on, `run` makes `puts`: the same run on the logged store, `runLogged`, has the same
result, and the log grows by the puts. -/
structure Logs (store : Store σ) (run : σ → α × σ)
    (runLogged : σ × List Put → α × (σ × List Put)) (s : σ) (puts : List Put) : Prop where
  state : (run s).2 = store.after s puts
  log_eq (log : List Put) : runLogged (s, log) = ((run s).1, store.after s puts, log ++ puts)

theorem Logs.of_eq {store : Store σ} {run : σ → α × σ}
    {runLogged : σ × List Put → α × (σ × List Put)} {s : σ} {puts : List Put} {a : α}
    (h : run s = (a, store.after s puts))
    (hlog : ∀ log, runLogged (s, log) = (a, store.after s puts, log ++ puts)) :
    Logs store run runLogged s puts where
  state := by rw [h]
  log_eq log := by rw [hlog, h]

theorem Logs.run_eq {store : Store σ} {run : σ → α × σ}
    {runLogged : σ × List Put → α × (σ × List Put)} {s : σ} {puts : List Put}
    (h : Logs store run runLogged s puts) : run s = ((run s).1, store.after s puts) :=
  Prod.ext rfl h.state

/-! ### Retries -/

/-- One call puts once to `dest` and gives the answer, or fails for good without a put. -/
def PutsOnce (store : Store σ) (dest : Location) (call : σ → Except StoreError Unit × σ)
    (callLogged : σ × List Put → Except StoreError Unit × (σ × List Put)) : Prop :=
  ∀ s, (∃ q : Put, q.destination = dest ∧ q.answer = (call s).1 ∧
      Logs store call callLogged s [q]) ∨
    (∃ e, (call s).1 = .error e ∧ e.isTransient = false) ∧ Logs store call callLogged s []

/-- Puts to one destination, at most `n`, where only the last one may be other than a failure for a
moment.  The result is a success just when the last put is one. -/
structure Tried (dest : Location) (n : Nat) (puts : List Put) (result : Except StoreError Unit) :
    Prop where
  destination : ∀ q ∈ puts, q.destination = dest
  length_le : puts.length ≤ n
  again : ∀ q ∈ puts.dropLast, ∃ e, q.answer = .error e ∧ e.isTransient = true
  last : result = .ok () ↔ ∃ q ∈ puts.getLast?, q.answer = .ok ()

variable {store : Store σ} {dest : Location} {call : σ → Except StoreError Unit × σ}
  {callLogged : σ × List Put → Except StoreError Unit × (σ × List Put)}

theorem tried_one {q : Put} {n : Nat} (h : q.destination = dest) :
    Tried dest (n + 1) [q] q.answer where
  destination := by simp [h]
  length_le := by simp
  again := by simp
  last := by simp

theorem tried_none {e : StoreError} {n : Nat} : Tried dest n [] (.error e) where
  destination := by simp
  length_le := by simp
  again := by simp
  last := by simp

/-- One more put in front, after which there was another call. -/
theorem Tried.cons {q : Put} {n : Nat} {puts : List Put} {result : Except StoreError Unit}
    {e : StoreError} (h : Tried dest n puts result) (hq : q.destination = dest)
    (he : q.answer = .error e) (transient : e.isTransient = true) :
    Tried dest (n + 1) (q :: puts) result where
  destination := List.forall_mem_cons.mpr ⟨hq, h.destination⟩
  length_le := Nat.succ_le_succ h.length_le
  again := by
    intro r hr
    cases puts with
    | nil => cases hr
    | cons p ps =>
      rw [List.dropLast_cons_cons, List.mem_cons] at hr
      rcases hr with rfl | hr
      · exact ⟨e, he, transient⟩
      · exact h.again r hr
  last := by
    rw [h.last]
    cases puts with
    | nil => simp [he]
    | cons p ps => rw [List.getLast?_cons_cons]

namespace RetryPolicy

/-- The result of calls under a policy and the state they left. -/
def outcome {ε : Type} (a : Attempted ε α σ) : Except ε α × σ := (a.result, a.state)

section

variable {ε : Type} {p : RetryPolicy} {isTransient : ε → Bool} {f : σ → Except ε α × σ} {s t : σ}
  {r : Except ε α}

/-- The call was the last one, or its answer ends the calls. -/
theorem outcome_of_stop {more : Nat} (n : Nat) (h : f s = (r, t))
    (stop : more = 0 ∨ ∀ e, r = .error e → isTransient e = false) :
    outcome (p.callAgain isTransient f more n s) = (r, t) := by
  cases more with
  | zero => rw [callAgain, outcome, h]
  | succ more =>
    rw [callAgain, h]
    rcases r with e | a
    · have lasting := (stop.resolve_left (Nat.succ_ne_zero more)) e rfl
      simp [lasting, outcome]
    · rfl

theorem outcome_of_again {e : ε} (more n : Nat) (h : f s = (.error e, t))
    (he : isTransient e = true) : outcome (p.callAgain isTransient f (more + 1) n s) =
      outcome (p.callAgain isTransient f more (n + 1) t) := by
  rw [callAgain, h]
  simp only [he, if_true]
  rfl

end

/-- The calls under a policy make puts that the policy allows, on the store and on the logged one.
-/
def MakesTried (store : Store σ) (dest : Location) (call : σ → Except StoreError Unit × σ)
    (callLogged : σ × List Put → Except StoreError Unit × (σ × List Put)) (p : RetryPolicy)
    (more n : Nat) (s : σ) : Prop :=
  ∃ puts, Logs store (fun s => outcome (p.callAgain StoreError.isTransient call more n s))
      (fun s => outcome (p.callAgain StoreError.isTransient callLogged more n s)) s puts ∧
    Tried dest (more + 1) puts (outcome (p.callAgain StoreError.isTransient call more n s)).1

/-- The puts of the last call. -/
theorem makesTried_of_stop {p : RetryPolicy} {more : Nat} {s : σ} {puts : List Put}
    {r : Except StoreError Unit} (n : Nat) (log : Logs store call callLogged s puts)
    (hr : (call s).1 = r) (stop : more = 0 ∨ ∀ e, r = .error e → e.isTransient = false)
    (tried : Tried dest (more + 1) puts r) :
    MakesTried store dest call callLogged p more n s := by
  have run := log.run_eq
  rw [hr] at run
  refine ⟨puts, .of_eq (outcome_of_stop n run stop) fun l => ?_, ?_⟩
  · exact outcome_of_stop n (by rw [log.log_eq, hr]) stop
  · rwa [outcome_of_stop n run stop]

/-- Another call follows only a put that failed for a moment. -/
theorem makesTried_callAgain (h : PutsOnce store dest call callLogged) (p : RetryPolicy)
    (more n : Nat) (s : σ) : MakesTried store dest call callLogged p more n s := by
  induction more generalizing n s with
  | zero =>
    obtain ⟨q, hq, answer, log⟩ | ⟨⟨e, he, -⟩, log⟩ := h s
    · exact makesTried_of_stop n log answer.symm (.inl rfl) (tried_one hq)
    · exact makesTried_of_stop n log he (.inl rfl) tried_none
  | succ more ih =>
    obtain ⟨q, hq, answer, log⟩ | ⟨⟨e, he, lasting⟩, log⟩ := h s
    · by_cases again : ∃ e, q.answer = .error e ∧ e.isTransient = true
      · obtain ⟨e, he, transient⟩ := again
        have run := log.run_eq
        rw [← answer, he] at run
        obtain ⟨puts, later, tried⟩ := ih (n + 1) (store.after s [q])
        have step := outcome_of_again (p := p) more n run transient
        refine ⟨q :: puts, ⟨?_, fun l => ?_⟩, ?_⟩
        · rw [step]
          exact later.state
        · have logged : callLogged (s, l) = (.error e, store.after s [q], l ++ [q]) := by
            rw [log.log_eq, ← answer, he]
          refine (outcome_of_again more n logged transient).trans ((later.log_eq _).trans ?_)
          rw [step, List.append_assoc]
          rfl
        · rw [step]
          exact tried.cons hq he transient
      · refine makesTried_of_stop n log answer.symm (.inr fun e he => ?_) (tried_one hq)
        rw [Bool.eq_false_iff]
        exact fun transient => again ⟨e, he, transient⟩
    · refine makesTried_of_stop n log he (.inr fun e' he' => ?_) tried_none
      cases he'
      exact lasting

end RetryPolicy

end EtlFlow.Storage
