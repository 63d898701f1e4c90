import PriceArchive.Proofs.Calendar.Dates
import PriceArchive.Proofs.Calendar.StoredTime

namespace PriceArchive

namespace Instant

/-- How many nanoseconds a day has. -/
def nanosPerDay : Int := 86400000000000

/-- The nanoseconds since midnight; in a leap second they run on past the next second. -/
def nanosOfDay (t : Instant) : Int := t.seconds % secondsPerDay * nanosPerSecond + t.nanos

/-- The time is stored as one of the next day: it lies in a leap second at the end of its day, or before
2000 and less than a microsecond before midnight, since a rest is dropped towards the start of 2000. -/
def RollsOver (t : Instant) : Prop :=
  nanosPerDay ≤ t.nanosOfDay ∨
    (t.seconds < StoredTime.epochSeconds ∧ nanosPerDay < t.nanosOfDay + 1000)

instance (t : Instant) : Decidable t.RollsOver := inferInstanceAs (Decidable (_ ∨ _))

/-- The date on which the time is stored. -/
def storedDate (t : Instant) : Date := if t.RollsOver then .ofDays (t.dayNumber + 1) else t.date

end Instant

namespace StoredTime

/-- What is left of a time lies within its microsecond, on the side of the start of 2000. -/
theorem truncate_bounds (t : Instant) :
    let nanos := (t.seconds - epochSeconds) * nanosPerSecond + t.nanos
    (0 ≤ nanos → 1000 * truncate t ≤ nanos ∧ nanos < 1000 * truncate t + 1000) ∧
      (nanos < 0 → nanos ≤ 1000 * truncate t ∧ 1000 * truncate t < nanos + 1000) := by
  intro nanos
  rw [truncate]
  constructor
  · intro hpos
    rw [Int.tdiv_eq_ediv_of_nonneg hpos]
    omega
  · intro hneg
    have htdiv : Int.tdiv nanos 1000 = -(-nanos / 1000) := by
      rw [← Int.tdiv_eq_ediv_of_nonneg (by omega), Int.neg_tdiv, Int.neg_neg]
    rw [htdiv]
    omega

theorem dayNumber_of_ofInstant? {t : Instant} {d : StoredTime} (h : ofInstant? t = some d) :
    d.toInstant.dayNumber = if t.RollsOver then t.dayNumber + 1 else t.dayNumber := by
  obtain ⟨hpos, hneg⟩ := truncate_bounds t
  have hnanos := t.nanos_lt
  change (d.micros / microsPerSecond + epochSeconds) / secondsPerDay = _
  rw [micros_of_ofInstant? h]
  unfold nanosPerSecond epochSeconds at *
  unfold Instant.dayNumber microsPerSecond
  split
  · rename_i hroll
    unfold Instant.RollsOver Instant.nanosOfDay Instant.nanosPerDay nanosPerSecond epochSeconds at hroll
    unfold secondsPerDay at *
    omega
  · rename_i hkept
    unfold Instant.RollsOver Instant.nanosOfDay Instant.nanosPerDay nanosPerSecond epochSeconds at hkept
    unfold secondsPerDay at *
    omega

/-- A stored time denotes an instant of the date on which the time is stored. -/
theorem date_of_ofInstant? {t : Instant} {d : StoredTime} (h : ofInstant? t = some d) :
    d.toInstant.date = t.storedDate := by
  rw [Instant.date, dayNumber_of_ofInstant? h, Instant.storedDate]
  split <;> rfl

/-- Midnight of a day is stored without loss. -/
theorem micros_of_midnight {t : Instant} {d : StoredTime} {day : Int}
    (hseconds : t.seconds = day * secondsPerDay) (hnanos : t.nanos = 0) (h : ofInstant? t = some d) :
    d.micros = (day * secondsPerDay - epochSeconds) * microsPerSecond := by
  rw [micros_of_ofInstant? h, truncate_of_whole (by rw [hnanos]), hseconds, hnanos]
  omega

/-- The stored times from midnight of a day on are those of this day and of later ones. -/
theorem le_iff_of_midnight {t : Instant} {m d : StoredTime} {day : Int}
    (hseconds : t.seconds = day * secondsPerDay) (hnanos : t.nanos = 0)
    (h : ofInstant? t = some m) : m ≤ d ↔ day ≤ d.toInstant.dayNumber := by
  change m.micros ≤ d.micros ↔ day ≤ (d.micros / microsPerSecond + epochSeconds) / secondsPerDay
  rw [micros_of_midnight hseconds hnanos h]
  unfold microsPerSecond epochSeconds secondsPerDay
  omega

end StoredTime

namespace Instant

theorem parts_of_ofParts? {seconds : Int} {nanos : Nat} {t : Instant}
    (h : ofParts? seconds nanos = some t) : t.seconds = seconds ∧ t.nanos = nanos := by
  unfold ofParts? at h
  split at h
  · cases h
    exact ⟨rfl, rfl⟩
  · cases h

/-- Midnight after a day is that of the next one. -/
theorem endOfDay_eq_ok {t u : Instant} (h : t.endOfDay = .ok u) :
    u.seconds = (t.dayNumber + 1) * secondsPerDay ∧ u.nanos = 0 := by
  have hdays : t.startOfDay.addDays 1 =
      ofParts? (t.dayNumber * secondsPerDay + 1 * secondsPerDay) 0 := by
    rw [addDays, if_neg (by decide), if_neg (by simp [inLeapSecond, startOfDay, nanosPerSecond])]
    rfl
  unfold endOfDay at h
  split at h
  · rename_i next hnext
    cases h
    rw [hdays, ← Int.add_mul] at hnext
    exact parts_of_ofParts? hnext
  · cases h

end Instant

end PriceArchive
