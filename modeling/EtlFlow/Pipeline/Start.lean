import EtlFlow.Pipeline.Error
import EtlFlow.Text.Blank
import EtlFlow.Time.Instant
/-!
# The first start

A pipeline that runs once starts at once.  The others start in the first slot that is not over yet: at a
minute of every hour, at a time of every day, or at that time of the weekday of now.  A definition may
shift the start.
-/

namespace EtlFlow.Pipeline

open Time (Instant)
open Workflow (Frequency)

/-! ### Load times -/

/-- A time of day. -/
structure TimeOfDay where
  hour : Nat
  minute : Nat
  hour_lt : hour < 24
  minute_lt : minute < 60
  deriving DecidableEq, Repr

namespace TimeOfDay

/-- The time of day that a text gives as hour and minute around a colon. -/
def ofText? (s : String) : Option TimeOfDay := do
  let (h, m) ← Text.splitFirst? ':' (Text.trimmed s)
  let hour ← Number.natural? 0x100000000 h.toList
  let minute ← Number.natural? 0x100000000 m.toList
  if h : hour < 24 ∧ minute < 60 then return ⟨hour, minute, h.1, h.2⟩ else none

/-- The time of day that a text gives. -/
def parse (s : String) : Except InputError TimeOfDay :=
  match ofText? s with
  | some t => .ok t
  | none => .error (.loadTime s)

/-- The time of day some minutes behind the start of a day. -/
def ofMinutes (n : Nat) : TimeOfDay :=
  ⟨n / 60 % 24, n % 60, Nat.mod_lt _ (by decide), Nat.mod_lt _ (by decide)⟩

end TimeOfDay

/-- When a pipeline starts, as its definition says it. -/
inductive LoadTime where
  | minutes (n : Nat)
  | clock (text : String)
  deriving DecidableEq, Repr

/-- The time of day that a definition says. -/
def LoadTime.timeOfDay : LoadTime → Except InputError TimeOfDay
  | minutes n => .ok (.ofMinutes n)
  | clock text => TimeOfDay.parse text

/-! ### Shifts -/

/-- The seconds of a unit of time. -/
def unitSeconds? (unit : Char) : Option Int :=
  match unit with
  | 'd' => some Time.day
  | 'h' => some Time.hour
  | 'm' => some Time.minute
  | _ => none

/-- The longest shift, in seconds: its milliseconds fit a word of 64 bits. -/
def maxShift : Int := 0x7fffffffffffffff / 1000

/-- The seconds that a text gives as a number of days, hours or minutes. -/
def parseShift (s : String) : Except InputError Int := do
  let cs := Text.trim s.toList
  let number := Number.integer? 0x8000000000000000 (Text.trim cs.dropLast)
  match number, cs.getLast?.bind unitSeconds? with
  | some n, some unit =>
    let seconds := n * unit
    if -maxShift ≤ seconds ∧ seconds ≤ maxShift then return seconds
    else throw (.timeDeltaRange (String.ofList cs))
  | _, _ => throw (.timeDelta s)

/-- The instant shifted by what a text gives. -/
def shifted (start : Instant) (delta : String) : Except InputError Instant := do
  match start.shift? (← parseShift delta) with
  | some t => return t
  | none => throw (.startRange delta)

/-! ### The start -/

/-- The first instant from `now` on that is `offset` seconds behind the start of a `span`, where the next
one is looked for a `period` later. -/
def nextSlot (now : Instant) (span offset period : Int) : Instant :=
  let candidate := now.seconds - now.seconds.fmod span + offset
  ⟨if candidate < now.seconds then candidate + period else candidate⟩

/-- The slot of a frequency.  A pipeline that names no time of day starts at `default`, or at the full hour
if it runs hourly. -/
def slot (frequency : Frequency) (loadTime : Option LoadTime) (default : String) (now : Instant) :
    Except InputError Instant := do
  let atTime (period : Int) : Except InputError Instant := do
    let t ← (loadTime.getD (.clock default)).timeOfDay
    return nextSlot now Time.day (t.hour * Time.hour + t.minute * Time.minute) period
  match frequency with
  | .oneTime => return now
  | .hourly =>
    let t ← (loadTime.getD (.minutes 0)).timeOfDay
    return nextSlot now Time.hour (t.minute * Time.minute) Time.hour
  | .daily => atTime Time.day
  | .weekly => atTime Time.week

/-- The first start of a pipeline. -/
def firstStart (frequency : Frequency) (loadTime : Option LoadTime) (default : String)
    (delta : Option String) (now : Instant) : Except InputError Instant := do
  let start ← slot frequency loadTime default now
  match delta with
  | some delta => shifted start delta
  | none => return start

end EtlFlow.Pipeline
