import EtlFlow.Proofs.Number.Digits
import EtlFlow.Time.Instant
import Mathlib.Tactic.Common
/-!
# Times of day and days of the week

The instants at one minute of the hour are whole hours apart (`clock_minute_iff`), those at one time
of day whole days (`clock_iff`), and those at one time of one day of the week whole weeks
(`clock_weekday_iff`).  An instant of a year with four digits lies far inside the calendar
(`bounds_of_year`).
-/

namespace EtlFlow.Time.Instant

variable {t u : Instant} {h m : Nat} {s : Int}

/-- The day of the week, counted from Monday: the first day of 1970 was a Thursday. -/
def weekday (t : Instant) : Int := (t.seconds.fdiv day + 3).fmod 7

example : (ofDate ⟨2024, 2, 29⟩ 23 59 59).weekday = 3 ∧ (ofDate ⟨1969, 12, 28⟩ 0 0 0).weekday = 6 := by
  decide

/-- The calendar has the instant. -/
def InCalendar (t : Instant) : Prop := earliest.seconds ≤ t.seconds ∧ t.seconds ≤ latest.seconds

/-! ### Times -/

theorem fmod_hour (x : Int) : x.fmod hour = x % 3600 := Int.fmod_eq_emod_of_nonneg x (by decide)

theorem fmod_day (x : Int) : x.fmod day = x % 86400 := Int.fmod_eq_emod_of_nonneg x (by decide)

theorem fdiv_day (x : Int) : x.fdiv day = x / 86400 := Int.fdiv_eq_ediv_of_nonneg x (by decide)

theorem weekday_eq (t : Instant) : t.weekday = (t.seconds / 86400 + 3) % 7 := by
  rw [weekday, fdiv_day, Int.fmod_eq_emod_of_nonneg _ (by decide)]

theorem clock_eq_iff (hm : m < 60) :
    t.clock = (h, m, 0) ↔ t.seconds % 86400 = h * 3600 + m * 60 := by
  simp only [clock, Prod.mk.injEq, fmod_day]
  omega

/-- Instants at one minute of the hour are whole hours apart. -/
theorem clock_minute_iff (hm : m < 60) : t.clock.2 = (m, 0) ↔
    hour ∣ t.seconds - (u.seconds - u.seconds.fmod hour + m * minute) := by
  rw [fmod_hour]
  simp only [clock, Prod.mk.injEq, fmod_day, hour, minute]
  omega

/-- Instants at one time of day are whole days apart. -/
theorem clock_iff (hh : h < 24) (hm : m < 60) : t.clock = (h, m, 0) ↔
    day ∣ t.seconds - (u.seconds - u.seconds.fmod day + (h * hour + m * minute)) := by
  rw [clock_eq_iff hm, fmod_day]
  simp only [day, hour, minute]
  omega

/-- Instants at one time of one day of the week are whole weeks apart. -/
theorem clock_weekday_iff (hh : h < 24) (hm : m < 60) :
    t.clock = (h, m, 0) ∧ t.weekday = u.weekday ↔
      week ∣ t.seconds - (u.seconds - u.seconds.fmod day + (h * hour + m * minute)) := by
  rw [clock_eq_iff hm, weekday_eq, weekday_eq, fmod_day]
  simp only [week, day, hour, minute]
  omega

/-! ### Stamps -/

/-- A stamp has no characters but those of numerals. -/
theorem isNumeral_of_mem_stamp {c : Char} (h : c ∈ t.stamp.toList) : Number.IsNumeral c := by
  have digits {width n : Nat} (hc : c ∈ (Number.padded width n).toList) : Number.IsNumeral c :=
    .inl (Number.isDigit_of_mem_padded hc)
  simp only [stamp, format, Date.yearText, List.map_cons, List.map_nil,
    String.intercalate_cons_cons, String.intercalate_singleton, String.append_empty,
    String.toList_append, List.mem_append] at h
  obtain ((sign | year) | month | day) | hour | minute | second := h
  · split at sign
    · exact .inr (.inr (List.mem_singleton.mp sign))
    · split at sign
      · exact .inr (.inl (List.mem_singleton.mp sign))
      · cases sign
  all_goals exact digits ‹_›

/-! ### Bounds -/

theorem earliest_eq : earliest.seconds = -8334601228800 := by decide

theorem latest_eq : latest.seconds = 8210266876799 := by decide

theorem shift?_eq_some_iff : t.shift? s = some u ↔ u.InCalendar ∧ u.seconds = t.seconds + s := by
  unfold shift? InCalendar
  dsimp only
  split
  · next hin =>
      rw [Option.some.injEq]
      constructor
      · rintro rfl
        exact ⟨hin, rfl⟩
      · rintro ⟨-, hu⟩
        cases u
        exact congrArg Instant.mk hu.symm
  · next hout =>
      constructor
      · rintro ⟨⟩
      · rintro ⟨hin, hu⟩
        rw [hu] at hin
        exact absurd hin hout

/-- The years with four digits begin and end far inside the calendar. -/
theorem bounds_of_year (h0 : 0 ≤ t.date.year) (h9 : t.date.year ≤ 9999) :
    -100000000000 ≤ t.seconds ∧ t.seconds ≤ 300000000000 := by
  unfold date Date.ofDays at h0 h9
  simp only [fdiv_day, Date.epochDays, Date.cycleDays] at h0 h9
  rw [Int.fdiv_eq_ediv_of_nonneg _ (by decide), Int.fmod_eq_emod_of_nonneg _ (by decide)] at h0 h9
  omega

end EtlFlow.Time.Instant
