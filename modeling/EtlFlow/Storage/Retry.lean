/-!
# Retries

A policy for calls that can fail for a moment: how often to try, and how long to wait in between.  The
wait doubles from call to call up to a limit.  A run of a call under a policy is a value: the result,
the state that the calls left, and the waits between them.
-/

namespace EtlFlow.Storage

/-- How often to try, and how long to wait.  The waits are whole numbers of a unit of time, which is the
millisecond unless they say otherwise. -/
structure RetryPolicy where
  initial : Nat := 5000
  max : Nat := 60000
  attempts : Nat := 5
  deriving DecidableEq, Repr

/-- What a call came to that was tried under a policy. -/
structure Attempted (ε α σ : Type) where
  result : Except ε α
  state : σ
  waits : List Nat

namespace RetryPolicy

/-- The greatest factor of a wait. -/
def maxFactor : Nat := 4294967295

/-- The wait behind the call with number `n`, counted from zero. -/
def delay (p : RetryPolicy) (n : Nat) : Nat :=
  min (p.initial * if n < 32 then Nat.pow 2 n else maxFactor) p.max

variable {ε α σ : Type}

/-- Calls until the first success, the first lasting failure, or `more` further calls. -/
def callAgain (p : RetryPolicy) (isTransient : ε → Bool) (call : σ → Except ε α × σ) :
    (more : Nat) → (n : Nat) → σ → Attempted ε α σ
  | 0, _, s => ⟨(call s).1, (call s).2, []⟩
  | more + 1, n, s =>
    match call s with
    | (.ok a, s) => ⟨.ok a, s, []⟩
    | (.error e, s) =>
      if isTransient e then
        let later := callAgain p isTransient call more (n + 1) s
        { later with waits := p.delay n :: later.waits }
      else ⟨.error e, s, []⟩

/-- A call under the policy.  There is always one call. -/
def retry (p : RetryPolicy) (isTransient : ε → Bool) (call : σ → Except ε α × σ) (s : σ) :
    Attempted ε α σ :=
  p.callAgain isTransient call (p.attempts - 1) 0 s

/-! ### Waits that are carried out -/

/-- Calls of a loop that counts its waits in a word of 32 bits.  A wait is carried out on the state that
the calls work on. -/
def loop (p : RetryPolicy) (isTransient : ε → Bool) (call : σ → Except ε α × σ)
    (wait : Nat → σ → σ) (attempts n : UInt32) (_ : n < attempts) (s : σ) : Except ε α × σ :=
  match call s with
  | (.ok a, s) => (.ok a, s)
  | (.error e, s) =>
    if again : isTransient e = true ∧ n + 1 < attempts then
      loop p isTransient call wait attempts (n + 1) again.2 (wait (p.delay n.toNat) s)
    else (.error e, s)
termination_by attempts.toNat - n.toNat
decreasing_by
  have := UInt32.lt_iff_toNat_lt.mp ‹n < attempts›
  have := attempts.toNat_lt
  rw [UInt32.toNat_add, UInt32.toNat_one]
  omega

theorem zero_lt_max_one (w : UInt32) : 0 < Max.max w 1 := by
  rw [UInt32.lt_iff_toNat_lt, UInt32.toNat_zero]
  show 0 < (if w ≤ 1 then 1 else w).toNat
  split
  · decide
  · next h =>
    rw [UInt32.le_iff_toNat_le, UInt32.toNat_one] at h
    omega

/-- A call under the policy that carries its waits out.  There is always one call. -/
def retryWith (p : RetryPolicy) (isTransient : ε → Bool) (call : σ → Except ε α × σ)
    (wait : Nat → σ → σ) (s : σ) : Except ε α × σ :=
  p.loop isTransient call wait (Max.max (.ofNat p.attempts) 1) 0 (zero_lt_max_one _) s

end RetryPolicy

end EtlFlow.Storage
