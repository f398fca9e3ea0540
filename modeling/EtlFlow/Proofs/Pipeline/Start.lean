import EtlFlow.Pipeline.Start
import EtlFlow.Proofs.Number.Digits
import EtlFlow.Proofs.Outcome
import EtlFlow.Proofs.Text.Words
import EtlFlow.Proofs.Time.Instant
/-!
# The first slot

A pipeline starts in the first slot of its frequency that is not over yet (`exists_slot`).  A shift
moves the start by the days, hours or minutes that its text gives, and fails for any other text and
where the calendar ends (`shifted_eq_ok_iff`).  Both together are `firstStart_next_slot`.
-/

namespace EtlFlow.Text

variable {c : Char} {a b s : String}

theorem splitFirst?_eq_some_iff :
    splitFirst? c s = some (a, b) ↔ s.toList = a.toList ++ c :: b.toList ∧ c ∉ a.toList := by
  have stop (ds : List Char) : ∀ d ∈ ds.takeWhile (· != c), d != c :=
    fun d hd => List.mem_takeWhile_imp (p := (· != c)) hd
  unfold splitFirst?
  constructor
  · intro h
    split at h
    · cases h
    · next d r hdrop =>
        cases h
        have hd : d = c := by
          have := List.head?_dropWhile_not (· != c) s.toList
          rw [hdrop] at this
          simpa using this
        rw [String.toList_ofList, String.toList_ofList, ← hd, ← hdrop, hd]
        exact ⟨List.takeWhile_append_dropWhile.symm, fun hc => by simpa using stop _ c hc⟩
  · rintro ⟨hs, hc⟩
    have hfront : ∀ d ∈ a.toList, (d != c) = true := by
      intro d hd
      rw [bne_iff_ne]
      rintro rfl
      exact hc hd
    rw [hs, List.dropWhile_append_of_pos hfront, List.takeWhile_append_of_pos hfront]
    simp

end EtlFlow.Text

namespace EtlFlow.Pipeline

open Number (IsNatural IsInteger)
open Outcome (bind_eq_ok_iff pure_eq_ok_iff)
open Text (isBlank trim)
open Time (Instant)
open Workflow (Frequency)

variable {f : Frequency} {t : TimeOfDay} {now start later : Instant} {loadTime : Option LoadTime}
  {default delta : String} {n unit seconds : Int}

/-! ### Load times -/

/-- The load time is the time of day `t`: minutes behind midnight, or its hour and its minute around a
colon, with any blanks around them. -/
def LoadTime.Gives : LoadTime → TimeOfDay → Prop
  | minutes n, t => t.hour = n / 60 % 24 ∧ t.minute = n % 60
  | clock text, t => ∃ front hour minute back,
      text.toList = front ++ (hour ++ ':' :: minute ++ back) ∧
        (∀ c ∈ front, isBlank c) ∧ (∀ c ∈ back, isBlank c) ∧
        IsNatural hour t.hour ∧ IsNatural minute t.minute

theorem TimeOfDay.ofText?_eq_some_iff {s : String} : ofText? s = some t ↔
    ∃ hour minute, trim s.toList = hour ++ ':' :: minute ∧ IsNatural hour t.hour ∧
      IsNatural minute t.minute := by
  simp only [ofText?, Option.bind_eq_bind, Option.bind_eq_some_iff, Prod.exists,
    Text.splitFirst?_eq_some_iff, Number.natural?_eq_some_iff, Text.trimmed, String.toList_ofList]
  constructor
  · rintro ⟨h, m, ⟨htrim, -⟩, hour, ⟨hhour, -⟩, minute, ⟨hminute, -⟩, ht⟩
    split at ht
    · cases ht
      exact ⟨h.toList, m.toList, htrim, hhour, hminute⟩
    · cases ht
  · rintro ⟨h, m, htrim, hhour, hminute⟩
    have hcolon : ':' ∉ h := fun hc => (hhour.isInteger.numerals.2 _ hc).ne_colon rfl
    have hhourBound := t.hour_lt
    have hminuteBound := t.minute_lt
    refine ⟨String.ofList h, String.ofList m, ?_, t.hour, ?_, t.minute, ?_, ?_⟩
    · rw [String.toList_ofList, String.toList_ofList]
      exact ⟨htrim, hcolon⟩
    · rw [String.toList_ofList]
      exact ⟨hhour, by omega⟩
    · rw [String.toList_ofList]
      exact ⟨hminute, by omega⟩
    · rw [dif_pos ⟨hhourBound, hminuteBound⟩]
      rfl

theorem LoadTime.timeOfDay_eq_ok_iff {l : LoadTime} : l.timeOfDay = .ok t ↔ l.Gives t := by
  cases l with
  | minutes n =>
      cases t
      simp [timeOfDay, TimeOfDay.ofMinutes, Gives, eq_comm]
  | clock text =>
      have hparse : TimeOfDay.parse text = .ok t ↔ TimeOfDay.ofText? text = some t := by
        unfold TimeOfDay.parse
        split <;> simp [*]
      rw [timeOfDay, hparse, TimeOfDay.ofText?_eq_some_iff]
      constructor
      · rintro ⟨hour, minute, htrim, hhour, hminute⟩
        obtain ⟨front, back, htext, hfront, hback⟩ := Text.exists_trim text.toList
        rw [htrim] at htext
        exact ⟨front, hour, minute, back, htext, hfront, hback, hhour, hminute⟩
      · rintro ⟨front, hour, minute, back, htext, hfront, hback, hhour, hminute⟩
        have hsolid : ∀ c ∈ hour ++ ':' :: minute, isBlank c = false := by
          intro c hc
          rcases List.mem_append.mp hc with hc | hc
          · exact (hhour.isInteger.numerals.2 c hc).not_isBlank
          · rcases List.mem_cons.mp hc with rfl | hc
            · rfl
            · exact (hminute.isInteger.numerals.2 c hc).not_isBlank
        refine ⟨hour, minute, ?_, hhour, hminute⟩
        rw [htext]
        exact Text.trim_between hfront hback (fun c hc => hsolid c (List.mem_of_head? hc))
          fun c hc => hsolid c (List.mem_of_getLast? hc)

/-- The load time that counts: one that the definition gives, and else the `default` or, for a pipeline
that runs hourly, the full hour. -/
def requested (f : Frequency) (loadTime : Option LoadTime) (default : String) : LoadTime :=
  loadTime.getD (if f = .hourly then .minutes 0 else .clock default)

/-! ### Slots -/

/-- The starts that a frequency and a time of day allow a pipeline that is compiled `now`. -/
def IsSlot (f : Frequency) (t : TimeOfDay) (now slot : Instant) : Prop :=
  match f with
  | .oneTime => slot = now
  | .hourly => slot.clock.2 = (t.minute, 0)
  | .daily => slot.clock = (t.hour, t.minute, 0)
  | .weekly => slot.clock = (t.hour, t.minute, 0) ∧ slot.weekday = now.weekday

/-- The first one of some instants from `now` on. -/
structure IsFirst (slots : Instant → Prop) (now first : Instant) : Prop where
  mem : slots first
  from_now : now.seconds ≤ first.seconds
  least : ∀ slot, slots slot → now.seconds ≤ slot.seconds → first.seconds ≤ slot.seconds

/-- The next slot is the first one of those that lie a multiple of `period` from the `offset` in the
current `span`. -/
theorem isFirst_nextSlot (slots : Instant → Prop) (now : Instant) (span offset period : Int)
    (hoffset : 0 ≤ offset) (hspan : offset < span) (hperiod : span ≤ period)
    (hslots : ∀ u, slots u ↔ period ∣ u.seconds - (now.seconds - now.seconds.fmod span + offset)) :
    IsFirst slots now (nextSlot now span offset period) ∧
      (nextSlot now span offset period).seconds < now.seconds + period := by
  have hmod : 0 ≤ now.seconds.fmod span ∧ now.seconds.fmod span < span := by
    rw [Int.fmod_eq_emod_of_nonneg _ (by omega)]
    exact ⟨Int.emod_nonneg _ (by omega), Int.emod_lt_of_pos _ (by omega)⟩
  have hmem : slots (nextSlot now span offset period) := by
    rw [hslots, nextSlot]
    dsimp only
    split
    · exact ⟨1, by omega⟩
    · exact ⟨0, by omega⟩
  have hbounds : now.seconds ≤ (nextSlot now span offset period).seconds ∧
      (nextSlot now span offset period).seconds < now.seconds + period := by
    unfold nextSlot
    dsimp only
    split <;> omega
  refine ⟨⟨hmem, hbounds.1, fun slot hslot hnow => ?_⟩, hbounds.2⟩
  -- An earlier slot is a whole period earlier, and that is before `now`.
  by_contra hearlier
  have hdvd : period ∣ (nextSlot now span offset period).seconds - slot.seconds := by
    obtain ⟨k, hk⟩ := Int.dvd_sub ((hslots _).mp hmem) ((hslots slot).mp hslot)
    exact ⟨k, by omega⟩
  have := Int.le_of_dvd (by omega) hdvd
  omega

theorem exists_slot (now : Instant) (h : f ≠ .oneTime → (requested f loadTime default).Gives t) :
    ∃ start, slot f loadTime default now = .ok start ∧ IsFirst (IsSlot f t now) now start ∧
      start.seconds < now.seconds + Time.week := by
  have hhour := t.hour_lt
  have hminute := t.minute_lt
  have htime (hf : f ≠ .oneTime) : (requested f loadTime default).timeOfDay = .ok t :=
    LoadTime.timeOfDay_eq_ok_iff.mpr (h hf)
  have hoffset : 0 ≤ t.hour * Time.hour + t.minute * Time.minute ∧
      t.hour * Time.hour + t.minute * Time.minute < Time.day := by
    simp only [Time.day, Time.hour, Time.minute]
    omega
  cases f with
  | oneTime =>
      refine ⟨now, rfl, ⟨rfl, Int.le_refl _, fun slot hslot _ => ?_⟩, ?_⟩
      · obtain rfl : slot = now := hslot
        exact Int.le_refl _
      · exact Int.lt_add_of_pos_right _ (by decide)
  | hourly =>
      have hfirst := isFirst_nextSlot (IsSlot .hourly t now) now Time.hour (t.minute * Time.minute)
        Time.hour (by simp only [Time.minute]; omega)
        (by simp only [Time.hour, Time.minute]; omega) (Int.le_refl _)
        fun u => Instant.clock_minute_iff hminute
      refine ⟨_, ?_, hfirst.1, Int.lt_trans hfirst.2 (Int.add_lt_add_left (by decide) _)⟩
      rw [slot, show loadTime.getD (.minutes 0) = requested .hourly loadTime default from rfl,
        htime (by decide)]
      rfl
  | daily =>
      have hfirst := isFirst_nextSlot (IsSlot .daily t now) now Time.day _ Time.day hoffset.1
        hoffset.2 (Int.le_refl _) fun u => Instant.clock_iff hhour hminute
      refine ⟨_, ?_, hfirst.1, Int.lt_trans hfirst.2 (Int.add_lt_add_left (by decide) _)⟩
      rw [slot, show loadTime.getD (.clock default) = requested .daily loadTime default from rfl,
        htime (by decide)]
      rfl
  | weekly =>
      have hfirst := isFirst_nextSlot (IsSlot .weekly t now) now Time.day _ Time.week hoffset.1
        hoffset.2 (by decide) fun u => Instant.clock_weekday_iff hhour hminute
      refine ⟨_, ?_, hfirst⟩
      rw [slot, show loadTime.getD (.clock default) = requested .weekly loadTime default from rfl,
        htime (by decide)]
      rfl

/-! ### Shifts -/

/-- The units of time that a shift may have. -/
def IsUnit (letter : Char) (seconds : Int) : Prop :=
  letter = 'd' ∧ seconds = Time.day ∨ letter = 'h' ∧ seconds = Time.hour ∨
    letter = 'm' ∧ seconds = Time.minute

/-- The text gives `n` times a unit: a number with the letter of the unit behind it, where blanks may
stand around both. -/
def Shifts (delta : String) (n unit : Int) : Prop :=
  ∃ front number gap letter back,
    delta.toList = front ++ (number ++ gap ++ [letter] ++ back) ∧ (∀ c ∈ front, isBlank c) ∧
      (∀ c ∈ gap, isBlank c) ∧ (∀ c ∈ back, isBlank c) ∧ IsInteger number n ∧ IsUnit letter unit

theorem unitSeconds?_eq_some_iff {letter : Char} :
    unitSeconds? letter = some unit ↔ IsUnit letter unit := by
  unfold unitSeconds? IsUnit
  split
  · simp [eq_comm]
  · simp [eq_comm]
  · simp [eq_comm]
  · next hd hh hm =>
      simp [show letter ≠ 'd' from hd, show letter ≠ 'h' from hh, show letter ≠ 'm' from hm]

theorem IsUnit.not_isBlank {letter : Char} (h : IsUnit letter unit) : isBlank letter = false := by
  rcases h with ⟨rfl, -⟩ | ⟨rfl, -⟩ | ⟨rfl, -⟩ <;> rfl

/-- What is read of a shift: the number in front of its last letter, and the unit of that. -/
theorem shifts_iff : Shifts delta n unit ↔
    IsInteger (trim (trim delta.toList).dropLast) n ∧
      ∃ letter, (trim delta.toList).getLast? = some letter ∧ IsUnit letter unit := by
  constructor
  · rintro ⟨front, number, gap, letter, back, htext, hfront, hgap, hback, hnumber, hunit⟩
    obtain ⟨hne, hnumerals⟩ := hnumber.numerals
    have hhead : ∀ c ∈ number.head?, isBlank c = false :=
      fun c hc => (hnumerals c (List.mem_of_head? hc)).not_isBlank
    have htrim : trim delta.toList = number ++ gap ++ [letter] := by
      rw [htext]
      refine Text.trim_between hfront hback ?_ ?_
      · rwa [List.append_assoc, List.head?_append_of_ne_nil _ hne]
      · rw [List.getLast?_concat]
        rintro _ ⟨⟩
        exact hunit.not_isBlank
    rw [htrim, List.dropLast_concat, List.getLast?_concat, Text.trim_append_blanks hgap,
      Text.trim_eq_self hhead fun c hc => (hnumerals c (List.mem_of_getLast? hc)).not_isBlank]
    exact ⟨hnumber, letter, rfl, hunit⟩
  · rintro ⟨hnumber, letter, hlast, hunit⟩
    obtain ⟨front, back, htext, hfront, hback⟩ := Text.exists_trim delta.toList
    obtain ⟨front', gap, hfirst, hfront', hgap⟩ := Text.exists_trim (trim delta.toList).dropLast
    refine ⟨front ++ front', _, gap, letter, back, ?_, ?_, hgap, hback, hnumber, hunit⟩
    · have hdrop : trim delta.toList = (trim delta.toList).dropLast ++ [letter] :=
        (List.dropLast_append_getLast? letter hlast).symm
      conv_lhs => rw [htext, hdrop, hfirst]
      simp only [List.append_assoc]
    · exact List.forall_mem_append.mpr ⟨hfront, hfront'⟩

theorem shifts_iff_read :
    Shifts delta n unit ∧ -0x8000000000000000 ≤ n ∧ n < 0x8000000000000000 ↔
      Number.integer? 0x8000000000000000 (trim (trim delta.toList).dropLast) = some n ∧
        (trim delta.toList).getLast?.bind unitSeconds? = some unit := by
  rw [shifts_iff, Number.integer?_eq_some_iff (by decide), Option.bind_eq_some_iff]
  simp only [unitSeconds?_eq_some_iff]
  exact and_right_comm

theorem parseShift_eq_ok_iff : parseShift delta = .ok seconds ↔
    ∃ n unit, (Shifts delta n unit ∧ -0x8000000000000000 ≤ n ∧ n < 0x8000000000000000) ∧
      seconds = n * unit ∧ -maxShift ≤ seconds ∧ seconds ≤ maxShift := by
  simp only [shifts_iff_read]
  unfold parseShift
  dsimp only
  split
  · next n unit hn hunit =>
      split
      · next hrange =>
          rw [pure_eq_ok_iff]
          constructor
          · rintro rfl
            exact ⟨n, unit, ⟨hn, hunit⟩, rfl, hrange⟩
          · rintro ⟨n', unit', ⟨hn', hunit'⟩, rfl, -⟩
            cases hn.symm.trans hn'
            cases hunit.symm.trans hunit'
            rfl
      · next hrange =>
          constructor
          · rintro ⟨⟩
          · rintro ⟨n', unit', ⟨hn', hunit'⟩, rfl, h⟩
            cases hn.symm.trans hn'
            cases hunit.symm.trans hunit'
            exact absurd h hrange
  · next hnone =>
      constructor
      · rintro ⟨⟩
      · rintro ⟨n, unit, ⟨hn, hunit⟩, -⟩
        exact absurd hunit (hnone n unit hn)

/-- A shift from one instant of the calendar to another fits the numbers that are read and the longest
shift. -/
theorem fits_of_shifts (h : Shifts delta n unit) (hstart : start.InCalendar)
    (hlater : later.InCalendar) (heq : later.seconds = start.seconds + n * unit) :
    (-0x8000000000000000 ≤ n ∧ n < 0x8000000000000000) ∧ -maxShift ≤ n * unit ∧
      n * unit ≤ maxShift := by
  obtain ⟨_, _, _, _, _, _, _, _, _, _, hunit⟩ := h
  simp only [Instant.InCalendar, Instant.earliest_eq, Instant.latest_eq] at hstart hlater
  simp only [maxShift]
  rcases hunit with ⟨-, rfl⟩ | ⟨-, rfl⟩ | ⟨-, rfl⟩ <;>
    · simp only [Time.day, Time.hour, Time.minute] at *
      omega

theorem shifted_eq_ok_iff (hstart : start.InCalendar) : shifted start delta = .ok later ↔
    later.InCalendar ∧ ∃ n unit, Shifts delta n unit ∧ later.seconds = start.seconds + n * unit := by
  rw [shifted, bind_eq_ok_iff]
  constructor
  · rintro ⟨seconds, hseconds, h⟩
    obtain ⟨n, unit, ⟨hshifts, -⟩, rfl, -⟩ := parseShift_eq_ok_iff.mp hseconds
    split at h
    · next hlater =>
        cases h
        obtain ⟨hcalendar, heq⟩ := Instant.shift?_eq_some_iff.mp hlater
        exact ⟨hcalendar, n, unit, hshifts, heq⟩
    · cases h
  · rintro ⟨hlater, n, unit, hshifts, heq⟩
    obtain ⟨hn, hrange⟩ := fits_of_shifts hshifts hstart hlater heq
    refine ⟨n * unit, parseShift_eq_ok_iff.mpr ⟨n, unit, ⟨hshifts, hn⟩, rfl, hrange⟩, ?_⟩
    rw [Instant.shift?_eq_some_iff.mpr ⟨hlater, heq⟩]
    rfl

/-! ### The first start -/

/-- A pipeline starts in the first slot from now on.  A shift moves that start by exactly what its text
gives; it is refused just when the text gives no shift, or only one that leaves the calendar. -/
theorem firstStart_next_slot (h0 : 0 ≤ now.date.year) (h9 : now.date.year ≤ 9999)
    (hload : f ≠ .oneTime → (requested f loadTime default).Gives t) :
    ∃ start, IsFirst (IsSlot f t now) now start ∧ start.InCalendar ∧
      firstStart f loadTime default none now = .ok start ∧
      (∀ delta later, firstStart f loadTime default (some delta) now = .ok later ↔
        later.InCalendar ∧
          ∃ n unit, Shifts delta n unit ∧ later.seconds = start.seconds + n * unit) ∧
      ∀ delta, (∃ e, firstStart f loadTime default (some delta) now = .error e) ↔
        ∀ n unit, Shifts delta n unit → ¬ (⟨start.seconds + n * unit⟩ : Instant).InCalendar := by
  obtain ⟨start, hslot, hfirst, hweek⟩ := exists_slot now hload
  have hcalendar : start.InCalendar := by
    have hnow := Instant.bounds_of_year h0 h9
    have hstart := hfirst.from_now
    simp only [Instant.InCalendar, Instant.earliest_eq, Instant.latest_eq]
    simp only [Time.week, Time.day, Time.hour, Time.minute] at hweek
    omega
  have hshifted (delta : String) :
      firstStart f loadTime default (some delta) now = shifted start delta := by
    rw [firstStart, hslot]
    rfl
  refine ⟨start, hfirst, hcalendar, ?_, fun delta later => ?_, fun delta => ?_⟩
  · rw [firstStart, hslot]
    rfl
  · rw [hshifted, shifted_eq_ok_iff hcalendar]
  · rw [hshifted]
    constructor
    · rintro ⟨e, he⟩ n unit hshifts hlater
      have hok := (shifted_eq_ok_iff hcalendar).mpr ⟨hlater, n, unit, hshifts, rfl⟩
      rw [he] at hok
      cases hok
    · intro hout
      cases hresult : shifted start delta with
      | error e => exact ⟨e, rfl⟩
      | ok later =>
          obtain ⟨hlater, n, unit, hshifts, heq⟩ := (shifted_eq_ok_iff hcalendar).mp hresult
          refine absurd ?_ (hout n unit hshifts)
          rwa [← heq]

/-- On a Saturday morning the slot of a weekly pipeline at one o'clock is over, and the next one is that of
the next Saturday. -/
theorem firstStart_next_slot_saturday :
    ∃ start, IsFirst (IsSlot .weekly ⟨1, 0, by decide, by decide⟩ (.ofDate ⟨2026, 10, 17⟩ 9 30 12))
        (.ofDate ⟨2026, 10, 17⟩ 9 30 12) start ∧
      firstStart .weekly (some (.clock "01:00")) "02:00" none (.ofDate ⟨2026, 10, 17⟩ 9 30 12) =
        .ok start ∧
      start = .ofDate ⟨2026, 10, 24⟩ 1 0 0 := by
  have gives : Frequency.weekly ≠ .oneTime →
      (requested .weekly (some (.clock "01:00")) "02:00").Gives ⟨1, 0, by decide, by decide⟩ :=
    fun _ => LoadTime.timeOfDay_eq_ok_iff.mp (by decide +kernel)
  have year : 0 ≤ (Instant.ofDate ⟨2026, 10, 17⟩ 9 30 12).date.year := by decide
  have starts : firstStart .weekly (some (.clock "01:00")) "02:00" none
      (.ofDate ⟨2026, 10, 17⟩ 9 30 12) = .ok (.ofDate ⟨2026, 10, 24⟩ 1 0 0) := by decide +kernel
  obtain ⟨start, hfirst, -, hstart, -⟩ := firstStart_next_slot year (by decide) gives
  exact ⟨start, hfirst, hstart, Except.ok.inj (hstart.symm.trans starts)⟩

end EtlFlow.Pipeline
