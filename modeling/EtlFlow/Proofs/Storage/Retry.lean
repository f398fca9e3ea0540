import EtlFlow.Storage.Retry
import Mathlib.Tactic.Common
/-!
# The calls and the waits of a policy

A call is repeated until its first success, its first lasting failure, or the last call that the policy
allows, with one wait between a call and the next one (`retry_stops`).  The calls meet the states
`before`, and `StopsAt` tells which call is the last one.  `retryWith` carries the waits out, so that
their order among the calls is seen, and counts them in words of 32 bits, which no count leaves
(`loop_stops`); `retry` lists the same waits (`retryWith_note`).

A wait is the first one doubled again and again, up to two limits (`delay_eq_min`); arithmetic that
stays at its greatest number gives the same waits (`delay_eq_saturated`).
-/

namespace EtlFlow.Storage.RetryPolicy

variable {ε α σ : Type} {p : RetryPolicy} {isTransient : ε → Bool} {call : σ → Except ε α × σ}
  {wait : ℕ → σ → σ} {s t : σ} {e : ε} {i j : ℕ}

/-! ### The length of a wait -/

/-- A number where `limit` is the greatest one that there is. -/
def saturated (limit n : ℕ) : ℕ := min n limit

/-- The factor of a wait is a power of two, or the greatest number of 32 bits. -/
theorem factor_eq_min (n : ℕ) :
    (if n < 32 then Nat.pow 2 n else maxFactor) = min (Nat.pow 2 n) maxFactor := by
  split
  · next h =>
      have hle : Nat.pow 2 n ≤ Nat.pow 2 31 := Nat.pow_le_pow_right (by decide) (by omega)
      have hmax : Nat.pow 2 31 ≤ maxFactor := by decide
      rw [Nat.min_eq_left (Nat.le_trans hle hmax)]
  · next h =>
      have hle : Nat.pow 2 32 ≤ Nat.pow 2 n := Nat.pow_le_pow_right (by decide) (by omega)
      have hmax : maxFactor ≤ Nat.pow 2 32 := by decide
      rw [Nat.min_eq_right (Nat.le_trans hmax hle)]

theorem delay_eq_min (p : RetryPolicy) (n : ℕ) :
    p.delay n = min (p.initial * min (Nat.pow 2 n) maxFactor) p.max := by
  rw [delay, factor_eq_min]

theorem delay_le_max (p : RetryPolicy) (n : ℕ) : p.delay n ≤ p.max := Nat.min_le_right _ _

theorem delay_mono (p : RetryPolicy) (h : i ≤ j) : p.delay i ≤ p.delay j := by
  have hpow : Nat.pow 2 i ≤ Nat.pow 2 j := Nat.pow_le_pow_right (by decide) h
  have hfactor : min (Nat.pow 2 i) maxFactor ≤ min (Nat.pow 2 j) maxFactor := by omega
  have hproduct := Nat.mul_le_mul_left p.initial hfactor
  rw [delay_eq_min, delay_eq_min]
  omega

/-- Where no number of 32 bits exceeds its greatest one and no time exceeds `longest`, the waits are the
same. -/
theorem delay_eq_saturated {longest : ℕ} (h : p.max ≤ longest) (n : ℕ) :
    p.delay n = min (saturated longest (p.initial * saturated maxFactor (Nat.pow 2 n))) p.max := by
  rw [delay_eq_min, saturated, saturated]
  omega

/-! ### The calls -/

/-- The state before the call with number `i`, counted from zero: the call before it and one wait have
been made. -/
def before (p : RetryPolicy) (call : σ → Except ε α × σ) (wait : ℕ → σ → σ) (s : σ) : ℕ → σ
  | 0 => s
  | i + 1 => wait (p.delay i) (call (before p call wait s i)).2

/-- The call with number `last` is the last one, where the call with number `i` has the result
`outcome i`. -/
structure StopsAt (p : RetryPolicy) (isTransient : ε → Bool) (outcome : ℕ → Except ε α) (last : ℕ) :
    Prop where
  /-- It is a call that the policy allows. -/
  within : last < Max.max p.attempts 1
  /-- All calls before it failed for a moment. -/
  again : ∀ i < last, ∃ e, outcome i = .error e ∧ isTransient e = true
  /-- The policy allows no other call, or it is a success or a lasting failure. -/
  stop : last + 1 = Max.max p.attempts 1 ∨ ∀ e, outcome last = .error e → isTransient e = false

/-- There is one last call. -/
theorem StopsAt.unique {outcome : ℕ → Except ε α} (hi : p.StopsAt isTransient outcome i)
    (hj : p.StopsAt isTransient outcome j) : i = j := by
  by_contra hne
  wlog hlt : i < j generalizing i j
  · exact this hj hi (Ne.symm hne) (by omega)
  obtain ⟨e, he, transient⟩ := hj.again i hlt
  rcases hi.stop with hlast | hlasting
  · have := hj.within
    omega
  · rw [hlasting e he] at transient
    cases transient

/-! ### The loop -/

variable {attempts n : UInt32}

/-- The count of waits never leaves its word. -/
theorem toNat_succ (h : n < attempts) : (n + 1).toNat = n.toNat + 1 := by
  have := UInt32.lt_iff_toNat_lt.mp h
  have := attempts.toNat_lt
  rw [UInt32.toNat_add, UInt32.toNat_one]
  omega

/-- A failure for a moment is followed by a wait and another call while the policy allows one. -/
theorem loop_of_again (h : n < attempts) (hcall : call s = (.error e, t))
    (he : isTransient e = true) (hmore : n + 1 < attempts) :
    p.loop isTransient call wait attempts n h s =
      p.loop isTransient call wait attempts (n + 1) hmore (wait (p.delay n.toNat) t) := by
  rw [loop, hcall]
  exact dif_pos ⟨he, hmore⟩

/-- Whatever else happens, the call was the last one. -/
theorem loop_of_stop (h : n < attempts)
    (hstop : ¬ n + 1 < attempts ∨ ∀ e, (call s).1 = .error e → isTransient e = false) :
    p.loop isTransient call wait attempts n h s = call s := by
  rw [loop]
  rcases hcall : call s with ⟨e | a, t⟩
  · refine dif_neg fun again => ?_
    rcases hstop with hend | hlasting
    · exact hend again.2
    · rw [hlasting e (by rw [hcall])] at again
      cases again.1
  · rfl

/-- The number of calls that a policy allows, as a word. -/
theorem toNat_max_one (hp : p.attempts ≤ maxFactor) :
    (Max.max (UInt32.ofNat p.attempts) 1).toNat = Max.max p.attempts 1 := by
  have hword : (UInt32.ofNat p.attempts).toNat = p.attempts :=
    UInt32.toNat_ofNat_of_lt' (Nat.lt_succ_of_le hp)
  show (if UInt32.ofNat p.attempts ≤ 1 then 1 else UInt32.ofNat p.attempts).toNat = _
  split
  · next h =>
      rw [UInt32.le_iff_toNat_le, hword, UInt32.toNat_one] at h
      rw [UInt32.toNat_one]
      omega
  · next h =>
      rw [UInt32.le_iff_toNat_le, hword, UInt32.toNat_one] at h
      rw [hword]
      omega

theorem lt_max_one_iff (hp : p.attempts ≤ maxFactor) :
    n < Max.max (.ofNat p.attempts) 1 ↔ n.toNat < Max.max p.attempts 1 := by
  rw [UInt32.lt_iff_toNat_lt, toNat_max_one hp]

/-- The loop goes on from the state before the call that it counts. -/
theorem loop_stops (hp : p.attempts ≤ maxFactor) (h : n < Max.max (.ofNat p.attempts) 1)
    (hagain : ∀ i < n.toNat, ∃ e, (call (p.before call wait s i)).1 = .error e ∧
      isTransient e = true) :
    ∃ last, p.StopsAt isTransient (fun i => (call (p.before call wait s i)).1) last ∧
      p.loop isTransient call wait (Max.max (.ofNat p.attempts) 1) n h
        (p.before call wait s n.toNat) = call (p.before call wait s last) := by
  -- Induction on the number of calls that the policy still allows.
  induction hk : Max.max p.attempts 1 - n.toNat generalizing n with
  | zero =>
      have := (lt_max_one_iff hp).mp h
      omega
  | succ k ih =>
      have hnext := toNat_succ h
      by_cases hmore : n + 1 < Max.max (.ofNat p.attempts) 1
      · by_cases htransient : ∃ e, (call (p.before call wait s n.toNat)).1 = .error e ∧
          isTransient e = true
        · obtain ⟨e, he, transient⟩ := htransient
          have hbefore : p.before call wait s (n + 1).toNat =
              wait (p.delay n.toNat) (call (p.before call wait s n.toNat)).2 := by
            rw [hnext, before]
          rw [loop_of_again h (Prod.ext he rfl) transient hmore, ← hbefore]
          refine ih hmore ?_ (by omega)
          intro i hi
          rw [hnext, Nat.lt_succ_iff_lt_or_eq] at hi
          rcases hi with hi | rfl
          · exact hagain i hi
          · exact ⟨e, he, transient⟩
        · have hlasting : ∀ e, (call (p.before call wait s n.toNat)).1 = .error e →
              isTransient e = false := by
            intro e he
            rw [Bool.eq_false_iff]
            exact fun transient => htransient ⟨e, he, transient⟩
          exact ⟨n.toNat, ⟨(lt_max_one_iff hp).mp h, hagain, .inr hlasting⟩,
            loop_of_stop h (.inr hlasting)⟩
      · have hlast : n.toNat + 1 = Max.max p.attempts 1 := by
          have hin := (lt_max_one_iff hp).mp h
          rw [lt_max_one_iff hp, hnext] at hmore
          omega
        exact ⟨n.toNat, ⟨(lt_max_one_iff hp).mp h, hagain, .inl hlast⟩,
          loop_of_stop h (.inl hmore)⟩

/-! ### Waits that are noted -/

/-- A call beside a list of waits. -/
def beside (call : σ → Except ε α × σ) (s : σ × List ℕ) : Except ε α × (σ × List ℕ) :=
  ((call s.1).1, (call s.1).2, s.2)

/-- A wait that is only noted. -/
def note (length : ℕ) (s : σ × List ℕ) : σ × List ℕ := (s.1, s.2 ++ [length])

/-- The loop that notes its waits is the one that lists them. -/
theorem loop_note {more : ℕ} (h : n < attempts) (hmore : n.toNat + more + 1 = attempts.toNat)
    (s : σ) (ws : List ℕ) :
    p.loop isTransient (beside call) note attempts n h (s, ws) =
      ((p.callAgain isTransient call more n.toNat s).result,
        (p.callAgain isTransient call more n.toNat s).state,
        ws ++ (p.callAgain isTransient call more n.toNat s).waits) := by
  have hnext := toNat_succ h
  have hiff : n + 1 < attempts ↔ more ≠ 0 := by
    rw [UInt32.lt_iff_toNat_lt, hnext]
    omega
  induction more generalizing n s ws with
  | zero =>
      rw [loop_of_stop h (.inl fun hlt => hiff.mp hlt rfl), callAgain, List.append_nil]
      rfl
  | succ more ih =>
      have hlt := hiff.mpr (Nat.succ_ne_zero more)
      rw [callAgain]
      rcases hcall : call s with ⟨e | a, t⟩
      · have hbeside : beside call (s, ws) = (.error e, t, ws) := by
          rw [beside, hcall]
        by_cases he : isTransient e = true
        · rw [loop_of_again h hbeside he hlt]
          have hnext' := toNat_succ hlt
          refine (ih hlt (by omega) t (ws ++ [p.delay n.toNat]) hnext' ?_).trans ?_
          · rw [UInt32.lt_iff_toNat_lt, hnext']
            omega
          · simp only [he, if_true, hnext, List.append_assoc, List.singleton_append]
        · rw [loop_of_stop h (.inr ?_), hbeside]
          · simp only [he, Bool.false_eq_true, if_false, List.append_nil]
          · rintro e' he'
            rw [hbeside] at he'
            cases he'
            exact Bool.eq_false_iff.mpr he
      · rw [loop_of_stop h (.inr ?_), beside, hcall]
        · simp only [List.append_nil]
        · rintro e he
          rw [beside, hcall] at he
          cases he

/-- A call under the policy lists the waits that another one carries out. -/
theorem retryWith_note (hp : p.attempts ≤ maxFactor) (s : σ) :
    p.retryWith isTransient (beside call) note (s, []) =
      ((p.retry isTransient call s).result, (p.retry isTransient call s).state,
        (p.retry isTransient call s).waits) := by
  refine loop_note (zero_lt_max_one _) ?_ s []
  rw [toNat_max_one hp, UInt32.toNat_zero]
  omega

/-- Between the calls nothing but the list of waits changes. -/
theorem before_note (i : ℕ) :
    p.before (beside call) note (s, []) i =
      (p.before call (fun _ => id) s i, (List.range i).map p.delay) := by
  induction i with
  | zero => rfl
  | succ i ih =>
      rw [before, ih, beside, note, before, List.range_succ, List.map_append]
      rfl

/-! ### The run of a policy -/

/-- Under every policy whose number of attempts is a word of 32 bits, calls are made up to the first
success, the first lasting failure or the last one that is allowed, which is at least one; the result is
that of the last call, and between a call and the next one there is one wait, whether the waits are
carried out or listed.  The waits double up to the greatest factor and up to `max`, where nothing is lost
if times stay at `longest`. -/
theorem retry_stops (p : RetryPolicy) (hp : p.attempts ≤ maxFactor) (isTransient : ε → Bool) :
    (∀ (call : σ → Except ε α × σ) (wait : ℕ → σ → σ) (s : σ), ∃ last,
      p.StopsAt isTransient (fun i => (call (p.before call wait s i)).1) last ∧
        last + 1 ≤ maxFactor ∧
        p.retryWith isTransient call wait s = call (p.before call wait s last)) ∧
    (∀ (call : σ → Except ε α × σ) (s : σ), ∃ last,
      p.StopsAt isTransient (fun i => (call (p.before call (fun _ => id) s i)).1) last ∧
        p.retry isTransient call s =
          ⟨(call (p.before call (fun _ => id) s last)).1,
            (call (p.before call (fun _ => id) s last)).2, (List.range last).map p.delay⟩) ∧
    (∀ i, p.delay i = min (p.initial * min (Nat.pow 2 i) (Nat.pow 2 32 - 1)) p.max) ∧
    (∀ i, p.delay i ≤ p.delay (i + 1) ∧ p.delay i ≤ p.max) ∧
    ∀ longest, p.max ≤ longest → ∀ i,
      p.delay i = min (saturated longest (p.initial * saturated maxFactor (Nat.pow 2 i))) p.max := by
  have hstops {τ : Type} (call : τ → Except ε α × τ) (wait : ℕ → τ → τ) (s : τ) : ∃ last,
      p.StopsAt isTransient (fun i => (call (p.before call wait s i)).1) last ∧
        p.retryWith isTransient call wait s = call (p.before call wait s last) :=
    loop_stops hp (zero_lt_max_one _) fun i hi => absurd hi (Nat.not_lt_zero i)
  refine ⟨fun call wait s => ?_, fun call s => ?_, delay_eq_min p, fun i => ?_,
    fun longest h => delay_eq_saturated h⟩
  · obtain ⟨last, hlast, hrun⟩ := hstops call wait s
    have := hlast.within
    have hone : 1 ≤ maxFactor := by decide
    exact ⟨last, hlast, by omega, hrun⟩
  · obtain ⟨last, hlast, hrun⟩ := hstops (beside call) note (s, [])
    rw [retryWith_note hp, before_note] at hrun
    simp only [before_note, beside, Prod.mk.injEq] at hlast hrun
    obtain ⟨hresult, hstate, hwaits⟩ := hrun
    refine ⟨last, hlast, ?_⟩
    rw [← hresult, ← hstate, ← hwaits]
  · exact ⟨p.delay_mono (Nat.le_succ i), p.delay_le_max i⟩

/-- A policy with as many attempts as a word can count. -/
def patient : RetryPolicy where
  initial := 1
  max := 3
  attempts := maxFactor

/-- A call that succeeds the fourth time. -/
def throttled (n : ℕ) : Except String ℕ × ℕ :=
  (if n < 3 then .error "throttled" else .ok n, n + 1)

theorem retry_stops_throttled :
    patient.attempts ≤ maxFactor ∧ patient.max ≤ 5 ∧
      patient.retry (fun _ => true) throttled 0 = ⟨.ok 3, 4, [1, 2, 3]⟩ ∧
      patient.delay 40 = min (saturated 5 (patient.initial * saturated maxFactor (Nat.pow 2 40))) 3 := by
  obtain ⟨-, hlist, -, -, hlongest⟩ :=
    retry_stops (σ := ℕ) (α := ℕ) patient (Nat.le_refl _) (fun _ : String => true)
  obtain ⟨last, hlast, hrun⟩ := hlist throttled 0
  have hagain : ∀ i < 3,
      (throttled (patient.before throttled (fun _ => id) 0 i)).1 = .error "throttled" := by decide
  have hthird : (throttled (patient.before throttled (fun _ => id) 0 3)).1 = .ok 3 := by decide
  have hstops : patient.StopsAt (fun _ : String => true)
      (fun i => (throttled (patient.before throttled (fun _ => id) 0 i)).1) 3 :=
    ⟨by decide, fun i hi => ⟨_, hagain i hi, rfl⟩, .inr fun e he => by cases hthird.symm.trans he⟩
  rw [hlast.unique hstops] at hrun
  exact ⟨Nat.le_refl _, by decide, hrun, hlongest 5 (by decide) 40⟩

end EtlFlow.Storage.RetryPolicy
