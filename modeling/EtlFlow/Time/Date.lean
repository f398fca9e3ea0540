import EtlFlow.Number.Digits
/-!
# Dates

The proleptic Gregorian calendar.  A day is counted from the first of January 1970.  Years are taken from
March to February, so that the leap day is the last one, and 400 of them have 146097 days.
-/

namespace EtlFlow.Time

/-- A date. -/
structure Date where
  year : Int
  month : Nat
  day : Nat
  deriving DecidableEq, Repr

namespace Date

/-- The days from the start of a year in March to the start of its month `m`, counted from zero. -/
def daysBefore (m : Nat) : Nat := (153 * m + 2) / 5

/-- The days in 400 years. -/
def cycleDays : Nat := 146097

/-- The days from the first of March of the year zero to the first of January 1970. -/
def epochDays : Int := 719468

/-- The date of a day. -/
def ofDays (days : Int) : Date :=
  let cycle := (days + epochDays).fdiv cycleDays
  let n := ((days + epochDays).fmod cycleDays).toNat
  let years := (n - n / 1460 + n / 36524 - n / 146096) / 365
  let rest := n - (365 * years + years / 4 - years / 100)
  let m := (5 * rest + 2) / 153
  let month := if m < 10 then m + 3 else m - 9
  ⟨400 * cycle + years + (if month ≤ 2 then 1 else 0), month, rest - daysBefore m + 1⟩

/-- The day of a date. -/
def toDays (d : Date) : Int :=
  let year := if d.month ≤ 2 then d.year - 1 else d.year
  let years := (year.fmod 400).toNat
  let rest := daysBefore ((d.month + 9) % 12) + d.day - 1
  year.fdiv 400 * cycleDays + (365 * years + years / 4 - years / 100 + rest) - epochDays

/-- The year in four digits, with a sign if it is negative or takes more. -/
def yearText (year : Int) : String :=
  let sign := if year < 0 then "-" else if 9999 < year then "+" else ""
  sign ++ Number.padded 4 year.natAbs

example : ofDays 0 = ⟨1970, 1, 1⟩ := by decide

example : ofDays 19781 = ⟨2024, 2, 28⟩ ∧ ofDays 19782 = ⟨2024, 2, 29⟩ ∧ ofDays 19783 = ⟨2024, 3, 1⟩ := by
  decide

example : toDays ⟨2024, 2, 29⟩ = 19782 ∧ toDays ⟨1970, 1, 1⟩ = 0 := by decide

end Date

end EtlFlow.Time
