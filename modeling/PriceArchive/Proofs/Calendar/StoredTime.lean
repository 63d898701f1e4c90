import PriceArchive.Calendar.StoredTime

namespace PriceArchive

namespace StoredTime

theorem micros_of_ofInstant? {t : Instant} {d : StoredTime} (h : ofInstant? t = some d) :
    d.micros = truncate t := by
  unfold ofInstant? at h
  split at h
  · cases h
    rfl
  · cases h

/-- What is stored for a time depends on its whole microseconds alone. -/
theorem ofInstant?_congr {t u : Instant} (h : truncate t = truncate u) :
    ofInstant? t = ofInstant? u := by
  unfold ofInstant?
  simp only [h]

theorem eq_of_micros_eq {c d : StoredTime} (h : c.micros = d.micros) : c = d := by
  obtain ⟨c, _, _⟩ := c
  obtain ⟨d, _, _⟩ := d
  cases h
  rfl

/-- A time in whole microseconds loses nothing. -/
theorem truncate_of_whole {t : Instant} (h : t.nanos % 1000 = 0) :
    truncate t = (t.seconds - epochSeconds) * microsPerSecond + (t.nanos / 1000 : Nat) := by
  have htotal : (t.seconds - epochSeconds) * nanosPerSecond + t.nanos =
      1000 * ((t.seconds - epochSeconds) * microsPerSecond + (t.nanos / 1000 : Nat)) := by
    unfold nanosPerSecond microsPerSecond
    omega
  rw [truncate, htotal, Int.mul_tdiv_cancel_left _ (by decide)]

end StoredTime

theorem Instant.ext {t u : Instant} (hseconds : t.seconds = u.seconds) (hnanos : t.nanos = u.nanos) :
    t = u := by
  obtain ⟨s, n, _, _, _⟩ := t
  obtain ⟨s', n', _, _, _⟩ := u
  cases hseconds
  cases hnanos
  rfl

/-- The store tells apart times in whole microseconds and outside of leap seconds. -/
theorem Instant.eq_of_truncate_eq {t u : Instant} (ht : t.nanos % 1000 = 0 ∧ t.inLeapSecond = false)
    (hu : u.nanos % 1000 = 0 ∧ u.inLeapSecond = false)
    (h : StoredTime.truncate t = StoredTime.truncate u) : t = u := by
  obtain ⟨htmicros, htleap⟩ := ht
  obtain ⟨humicros, huleap⟩ := hu
  rw [inLeapSecond, decide_eq_false_iff_not, nanosPerSecond] at htleap huleap
  rw [StoredTime.truncate_of_whole htmicros, StoredTime.truncate_of_whole humicros,
    StoredTime.microsPerSecond] at h
  have hseconds : t.seconds = u.seconds := by omega
  have hnanos : t.nanos = u.nanos := by omega
  exact Instant.ext hseconds hnanos

end PriceArchive
