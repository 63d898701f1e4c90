import PriceArchive.Proofs.Calendar.DaysBefore
import PriceArchive.Proofs.Calendar.NextDate
import PriceArchive.Proofs.Quotes.Listing

namespace PriceArchive

theorem Date.ofDays_inj {a b : Int} : ofDays a = ofDays b ↔ a = b :=
  ⟨fun h => by rw [← toDays_ofDays a, h, toDays_ofDays], congrArg ofDays⟩

namespace Instant

variable {t u : Instant}

/-- The first moment of a day. -/
def IsMidnight (t : Instant) : Prop := t.secondOfDay = 0 ∧ t.nanos = 0

instance (t : Instant) : Decidable t.IsMidnight := inferInstanceAs (Decidable (_ ∧ _))

theorem dayNumber_startOfDay (t : Instant) : t.startOfDay.dayNumber = t.dayNumber :=
  Int.mul_ediv_cancel _ (by decide)

theorem date_startOfDay (t : Instant) : t.startOfDay.date = t.date := by
  rw [date, dayNumber_startOfDay, date]

/-- An instant whose seconds are those of whole days is midnight. -/
theorem isMidnight_of_seconds {day : Int} (hseconds : t.seconds = day * secondsPerDay)
    (hnanos : t.nanos = 0) : t.IsMidnight := by
  refine ⟨?_, hnanos⟩
  rw [secondOfDay, hseconds, Int.mul_emod_left]
  rfl

theorem startOfDay_eq_iff : t.startOfDay = u.startOfDay ↔ t.date = u.date := by
  constructor
  · intro h
    rw [← date_startOfDay, h, date_startOfDay]
  · intro h
    have hday : t.dayNumber = u.dayNumber := Date.ofDays_inj.mp h
    refine Instant.ext ?_ rfl
    change t.dayNumber * secondsPerDay = u.dayNumber * secondsPerDay
    rw [hday]

/-- The instants from midnight of a day on are those of its date and of later ones. -/
theorem startOfDay_le_iff : u.startOfDay ≤ t ↔ u.date ≤ t.date := by
  rw [date, date, Date.ofDays_le_iff]
  change u.dayNumber * secondsPerDay < t.seconds ∨ (u.dayNumber * secondsPerDay = t.seconds ∧ 0 ≤ t.nanos) ↔
    _
  unfold dayNumber secondsPerDay
  omega

theorem dayNumber_mono (h : t ≤ u) : t.dayNumber ≤ u.dayNumber := by
  change t.seconds < u.seconds ∨ (t.seconds = u.seconds ∧ t.nanos ≤ u.nanos) at h
  unfold dayNumber secondsPerDay
  omega

/-- Midnight after a day is after the instants of its date and of earlier ones. -/
theorem lt_endOfDay_iff {e : Instant} (h : u.endOfDay = .ok e) : t < e ↔ t.date ≤ u.date := by
  obtain ⟨hseconds, hnanos⟩ := endOfDay_eq_ok h
  rw [date, date, Date.ofDays_le_iff]
  change t.seconds < e.seconds ∨ (t.seconds = e.seconds ∧ t.nanos < e.nanos) ↔ _
  rw [hseconds, hnanos]
  unfold dayNumber secondsPerDay
  omega

/-- The last date on which there are instants. -/
def lastDate : Date := ⟨262142, 12, 31⟩

theorem date_eq_lastDate_iff : t.date = lastDate ↔ t.dayNumber = 95026236 := by
  have hlast : lastDate = .ofDays 95026236 := by decide +kernel
  rw [hlast, date, Date.ofDays_inj]

/-- Midnight follows every day that is not on the last date. -/
theorem exists_endOfDay_iff : (∃ e, t.endOfDay = .ok e) ↔ t.date ≠ lastDate := by
  have hnext : t.startOfDay.addDays 1 = ofParts? ((t.dayNumber + 1) * secondsPerDay) 0 := by
    rw [addDays, if_neg (by decide), if_neg (by simp [inLeapSecond, startOfDay, nanosPerSecond]),
      Int.add_mul]
    rfl
  have hfits := @isSome_ofParts?_iff ((t.dayNumber + 1) * secondsPerDay) 0
  have hmin := t.min_le
  have hmax := t.le_max
  rw [Ne, date_eq_lastDate_iff, endOfDay, hnext]
  cases hparts : ofParts? ((t.dayNumber + 1) * secondsPerDay) 0 with
  | none =>
    rw [hparts, Option.isSome_none, Bool.false_eq_true, false_iff] at hfits
    refine iff_of_false (not_exists.mpr fun e he => ?_) ?_
    · cases he
    unfold dayNumber minSeconds maxSeconds secondsPerDay nanosPerSecond at *
    omega
  | some e =>
    rw [hparts] at hfits
    have hbounds := hfits.mp rfl
    refine iff_of_true ⟨e, rfl⟩ ?_
    unfold dayNumber minSeconds maxSeconds secondsPerDay nanosPerSecond at *
    omega

/-- It is midnight of the next date. -/
theorem isMidnight_endOfDay {e : Instant} (h : t.endOfDay = .ok e) :
    e.IsMidnight ∧ e.date = t.date.next := by
  obtain ⟨hseconds, hnanos⟩ := endOfDay_eq_ok h
  refine ⟨isMidnight_of_seconds hseconds hnanos, ?_⟩
  have hday : e.dayNumber = t.dayNumber + 1 := by
    rw [dayNumber, hseconds, Int.mul_ediv_cancel _ (by decide)]
  rw [date, hday, Date.ofDays_succ, date]

end Instant

namespace DateRange

variable {range : DateRange} {upper : Option Instant}

/-- The instant is not before the lower bound and before the upper one. -/
def Within (range : DateRange) (upper : Option Instant) (t : Instant) : Prop :=
  (∀ lower ∈ range.lowerBound, lower ≤ t) ∧ ∀ e ∈ upper, t < e

instance (range : DateRange) (upper : Option Instant) (t : Instant) :
    Decidable (range.Within upper t) := inferInstanceAs (Decidable (_ ∧ _))

/-- The upper bound is midnight after the last day. -/
theorem upperBound_eq_ok_iff : range.upperBound = .ok upper ↔
    (range.last = none ∧ upper = none) ∨
      ∃ last e, range.last = some last ∧ upper = some e ∧ last.endOfDay = .ok e := by
  rw [upperBound]
  cases range.last with
  | none => simp [eq_comm]
  | some last =>
    cases hend : last.endOfDay with
    | error o => simp [Except.map, hend]
    | ok e => simp [Except.map, hend, eq_comm]

theorem exists_upperBound_iff :
    (∃ upper, range.upperBound = .ok upper) ↔ ∀ last ∈ range.last, ∃ e, last.endOfDay = .ok e := by
  constructor
  · rintro ⟨upper, h⟩ last hlast
    obtain ⟨hnone, -⟩ | ⟨last', e, hsome, -, hend⟩ := upperBound_eq_ok_iff.mp h
    · rw [hnone] at hlast
      cases hlast
    · rw [hsome] at hlast
      cases hlast
      exact ⟨e, hend⟩
  · intro h
    cases hlast : range.last with
    | none => exact ⟨none, upperBound_eq_ok_iff.mpr (.inl ⟨hlast, rfl⟩)⟩
    | some last =>
      obtain ⟨e, hend⟩ := h last hlast
      exact ⟨some e, upperBound_eq_ok_iff.mpr (.inr ⟨last, e, hlast, rfl, hend⟩)⟩

/-- Between the bounds lie the instants of the dates of the range. -/
theorem within_iff_covers (h : range.upperBound = .ok upper) (t : Instant) :
    range.Within upper t ↔ range.Covers t.date := by
  obtain ⟨first, last⟩ := range
  apply and_congr
  · cases first with
    | none => simp [lowerBound]
    | some first => simp [lowerBound, Instant.startOfDay_le_iff]
  · obtain ⟨hlast, rfl⟩ | ⟨t, e, hlast, rfl, hend⟩ := upperBound_eq_ok_iff.mp h
    · cases hlast
      simp
    · cases hlast
      simp [Instant.lt_endOfDay_iff hend]

/-- Where midnight after the last day exists, which is for all dates but the last one, an instant lies
between the bounds of a range exactly if the range covers its date, and the upper bound is midnight of the
date after the last one. Midnight is the first moment of the day of an instant: it has the same date, is not
after the instant and is its own midnight; later instants have no earlier one, and two instants have the
same exactly if they have one date. -/
theorem bounds_are_midnights (range : DateRange) :
    (∀ upper, range.upperBound = .ok upper →
      (∀ t : Instant, range.Within upper t ↔ range.Covers t.date) ∧
        ∀ last ∈ range.last, ∃ e ∈ upper, e.IsMidnight ∧ e.date = last.date.next) ∧
      ((∃ upper, range.upperBound = .ok upper) ↔ ∀ last ∈ range.last, last.date ≠ Instant.lastDate) ∧
      ∀ t u : Instant, t.startOfDay.IsMidnight ∧ t.startOfDay.date = t.date ∧ t.startOfDay ≤ t ∧
        t.startOfDay.startOfDay = t.startOfDay ∧ (t ≤ u → t.startOfDay ≤ u.startOfDay) ∧
        (t.startOfDay = u.startOfDay ↔ t.date = u.date) := by
  refine ⟨fun upper h => ⟨within_iff_covers h, fun last hlast => ?_⟩, ?_, fun t u => ?_⟩
  · obtain ⟨hnone, -⟩ | ⟨last', e, hsome, rfl, hend⟩ := upperBound_eq_ok_iff.mp h
    · rw [hnone] at hlast
      cases hlast
    · rw [hsome] at hlast
      cases hlast
      exact ⟨e, rfl, Instant.isMidnight_endOfDay hend⟩
  · simp only [exists_upperBound_iff, Instant.exists_endOfDay_iff]
  · have hsame := Instant.date_startOfDay t
    refine ⟨Instant.isMidnight_of_seconds rfl rfl, hsame, ?_, ?_, fun h => ?_, Instant.startOfDay_eq_iff⟩
    · exact Instant.startOfDay_le_iff.mpr (.inr ⟨rfl, .inr ⟨rfl, Nat.le_refl _⟩⟩)
    · exact Instant.startOfDay_eq_iff.mpr hsame
    · rw [Instant.startOfDay_le_iff, Instant.date_startOfDay]
      exact Date.ofDays_le_iff.mpr (Instant.dayNumber_mono h)

/-- An instant of the year -43. -/
def inAntiquity : Instant := ⟨-63500000000, 999999999, by decide, by decide, Instant.latest.nanos_lt⟩

/-- The last instant of the leap second of June 2015, and midnight after it. -/
def inLeapSecond : Instant := ⟨1435708799, 1999999999, by decide, by decide, by decide⟩

def afterLeapSecond : Instant := ⟨1435708800, 0, by decide, by decide, Instant.epoch.nanos_lt⟩

/-- The days from antiquity to the one that ends with the leap second. -/
def untilLeapSecond : DateRange := ⟨some inAntiquity, some inLeapSecond⟩

theorem bounds_are_midnights_leapSecond :
    untilLeapSecond.upperBound = .ok (some afterLeapSecond) ∧
      untilLeapSecond.Within (some afterLeapSecond) inLeapSecond ∧
      ¬ untilLeapSecond.Within (some afterLeapSecond) afterLeapSecond ∧
      untilLeapSecond.Within (some afterLeapSecond) inAntiquity.startOfDay ∧
      (∃ e ∈ some afterLeapSecond, e.IsMidnight ∧ e.date = inLeapSecond.date.next) ∧
      inAntiquity ≤ inLeapSecond ∧ inAntiquity.startOfDay ≤ inLeapSecond.startOfDay := by
  have hupper : untilLeapSecond.upperBound = .ok (some afterLeapSecond) := rfl
  have hle : inAntiquity ≤ inLeapSecond := by decide
  obtain ⟨hbounds, -, hmidnights⟩ := bounds_are_midnights untilLeapSecond
  obtain ⟨hwithin, hnext⟩ := hbounds _ hupper
  obtain ⟨-, -, -, -, hmono, -⟩ := hmidnights inAntiquity inLeapSecond
  refine ⟨hupper, (hwithin _).mpr ?_, mt (hwithin _).mp ?_, (hwithin _).mpr ?_, hnext _ rfl, hle, hmono hle⟩
  · decide +kernel
  · decide +kernel
  · decide +kernel

end DateRange

end PriceArchive
