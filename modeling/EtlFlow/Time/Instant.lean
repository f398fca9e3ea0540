import EtlFlow.Text.Split
import EtlFlow.Time.Date
/-!
# Instants

An instant is a whole number of seconds since the start of 1970 in universal time, where every day has 86400
of them.
-/

namespace EtlFlow.Time

/-- The seconds of a minute. -/
def minute : Int := 60

/-- The seconds of an hour. -/
def hour : Int := 60 * minute

/-- The seconds of a day. -/
def day : Int := 24 * hour

/-- The seconds of a week. -/
def week : Int := 7 * day

/-- An instant, in seconds. -/
structure Instant where
  seconds : Int
  deriving DecidableEq, Repr

namespace Instant

/-- The instant of a date and a time of day. -/
def ofDate (d : Date) (hours minutes seconds : Nat) : Instant :=
  ⟨d.toDays * day + hours * hour + minutes * minute + seconds⟩

/-- The date of an instant. -/
def date (t : Instant) : Date := Date.ofDays (t.seconds.fdiv day)

/-- Hours, minutes and seconds of the day. -/
def clock (t : Instant) : Nat × Nat × Nat :=
  let s := (t.seconds.fmod day).toNat
  (s / 3600, s / 60 % 60, s % 60)

/-! ### Bounds -/

/-- The first instant of the calendar. -/
def earliest : Instant := ofDate ⟨-262143, 1, 1⟩ 0 0 0

/-- The last instant of the calendar. -/
def latest : Instant := ofDate ⟨262142, 12, 31⟩ 23 59 59

/-- The instant some seconds later, if the calendar has it. -/
def shift? (t : Instant) (seconds : Int) : Option Instant :=
  let later := t.seconds + seconds
  if earliest.seconds ≤ later ∧ later ≤ latest.seconds then some ⟨later⟩ else none

/-! ### Text -/

/-- Year, month and day between `dash`es, and hours, minutes and seconds between `colon`s. -/
def format (dash separator colon : String) (t : Instant) : String :=
  let d := t.date
  let (h, m, s) := t.clock
  dash.intercalate [Date.yearText d.year, Number.padded 2 d.month, Number.padded 2 d.day] ++
    separator ++ colon.intercalate ([h, m, s].map (Number.padded 2))

/-- Date and time with a `T` in between. -/
def text (t : Instant) : String := t.format "-" "T" ":"

/-- The digits of date and time without anything in between. -/
def stamp (t : Instant) : String := t.format "" "" ""

/-- The instant that a text names by date and time; a fraction of a second is dropped. -/
def ofText? (s : String) : Option Instant := do
  let (date, clock) ← Text.splitFirst? 'T' s
  let number (part : String) : Option Nat := Number.digits? part.toList
  let [y, mo, d] ← (Text.splitAt '-' date).mapM number | none
  let whole := ((Text.splitFirst? '.' clock).map (·.1)).getD clock
  let [h, mi, se] ← (Text.splitAt ':' whole).mapM number | none
  return ofDate ⟨y, mo, d⟩ h mi se

end Instant

end EtlFlow.Time
