import PriceArchive.Proofs.Calendar.StoredDay

namespace PriceArchive

namespace Instant

/-- The nanoseconds from the start of 1970; a leap second counts as the second after it. -/
def elapsed (t : Instant) : Int := t.seconds * nanosPerSecond + t.nanos

theorem elapsed_le {t u : Instant} (h : t ≤ u) (ht : t.inLeapSecond = false) :
    t.elapsed ≤ u.elapsed := by
  change t.seconds < u.seconds ∨ (t.seconds = u.seconds ∧ t.nanos ≤ u.nanos) at h
  rw [inLeapSecond, decide_eq_false_iff_not] at ht
  unfold elapsed nanosPerSecond at *
  omega

theorem elapsed_daysBefore {t u : Instant} {days : Int} (h : t.daysBefore days = .ok u)
    (hleap : t.inLeapSecond = false ∨ 0 ≤ days) :
    u.elapsed = t.elapsed - days * secondsPerDay * nanosPerSecond := by
  unfold daysBefore at h
  split at h
  · cases h
  split at h
  · rename_i before hbefore
    cases h
    unfold addDays at hbefore
    split at hbefore
    · cases hbefore
      have hdays : days = 0 := by omega
      rw [hdays]
      simp
    split at hbefore
    · rename_i hleap'
      have hback : ¬ 0 < -days := by
        rw [hleap'] at hleap
        have := hleap.resolve_left (by simp)
        omega
      rw [if_neg hback] at hbefore
      obtain ⟨hseconds, hnanos⟩ := parts_of_ofParts? hbefore
      rw [inLeapSecond, decide_eq_true_iff] at hleap'
      unfold elapsed
      rw [hseconds, hnanos]
      unfold nanosPerSecond secondsPerDay at *
      omega
    · obtain ⟨hseconds, hnanos⟩ := parts_of_ofParts? hbefore
      unfold elapsed
      rw [hseconds, hnanos]
      unfold nanosPerSecond secondsPerDay
      omega
  · cases h

theorem isSome_ofParts?_iff {seconds : Int} {nanos : Nat} :
    (ofParts? seconds nanos).isSome ↔
      (minSeconds ≤ seconds ∧ seconds ≤ maxSeconds) ∧ nanos < 2 * nanosPerSecond := by
  unfold ofParts?
  split
  · exact iff_of_true rfl ‹_›
  · exact iff_of_false Bool.false_ne_true ‹_›

theorem elapsed_earliest : earliest.elapsed = minSeconds * nanosPerSecond := by decide

/-- Days can be taken away as long as the first instant is not passed. -/
theorem isSome_addDays_neg_iff {t : Instant} {days : Int} (hdays : 0 < days) :
    (t.addDays (-days)).isSome ↔
      earliest.elapsed ≤ t.elapsed - days * secondsPerDay * nanosPerSecond := by
  have hmax := t.le_max
  have hnanos := t.nanos_lt
  have hback : ¬ 0 < -days := by omega
  rw [addDays, if_neg (by omega), elapsed_earliest]
  simp only [hback, if_false]
  -- Outside a leap second there are fewer than a billion nanoseconds, and one leaves them for those after it.
  by_cases hleap : t.inLeapSecond = true
  · rw [if_pos hleap, isSome_ofParts?_iff]
    rw [inLeapSecond, decide_eq_true_iff] at hleap
    unfold elapsed minSeconds maxSeconds nanosPerSecond secondsPerDay at *
    omega
  · rw [if_neg hleap, isSome_ofParts?_iff]
    rw [inLeapSecond, decide_eq_true_iff] at hleap
    unfold elapsed minSeconds maxSeconds nanosPerSecond secondsPerDay at *
    omega

/-- Going back by days ends in one of three ways. -/
theorem daysBefore_cases (t : Instant) {days : Int} (hdays : 0 < days) :
    (maxSpanDays < days ∧ t.daysBefore days = .error .days) ∨
      (days ≤ maxSpanDays ∧ t.elapsed - days * secondsPerDay * nanosPerSecond < earliest.elapsed ∧
        t.daysBefore days = .error .difference) ∨
      (days ≤ maxSpanDays ∧ earliest.elapsed ≤ t.elapsed - days * secondsPerDay * nanosPerSecond ∧
        ∃ u, t.daysBefore days = .ok u) := by
  have hiff := isSome_addDays_neg_iff (t := t) hdays
  by_cases hspan : maxSpanDays < days
  · exact .inl ⟨hspan, if_pos (.inr hspan)⟩
  have hbounds : ¬ (days < -maxSpanDays ∨ maxSpanDays < days) := by
    unfold maxSpanDays at *
    omega
  rw [daysBefore, if_neg hbounds]
  cases hback : t.addDays (-days) with
  | none =>
    rw [hback, Option.isSome_none, Bool.false_eq_true, false_iff, Int.not_le] at hiff
    exact .inr (.inl ⟨Int.not_lt.mp hspan, hiff, rfl⟩)
  | some u =>
    rw [hback] at hiff
    exact .inr (.inr ⟨Int.not_lt.mp hspan, hiff.mp rfl, u, rfl⟩)

end Instant

/-- The store keeps the order of instants. -/
theorem StoredTime.le_of_elapsed_le {t u : Instant} {c d : StoredTime} (h : t.elapsed ≤ u.elapsed)
    (hc : ofInstant? t = some c) (hd : ofInstant? u = some d) : c ≤ d := by
  change c.micros ≤ d.micros
  rw [micros_of_ofInstant? hc, micros_of_ofInstant? hd, truncate, truncate]
  apply Int.tdiv_le_tdiv (by decide)
  unfold Instant.elapsed nanosPerSecond at *
  omega

/-- Of two instants outside leap seconds the earlier one has the earlier time some days before. For days
in the past it does not matter whether the later one is in a leap second. -/
theorem Instant.bounds_le_of_le {t u t' u' : Instant} {days : Int} {c d : StoredTime}
    (ht : t.daysBefore days = .ok t') (hu : u.daysBefore days = .ok u')
    (hc : StoredTime.ofInstant? t' = some c) (hd : StoredTime.ofInstant? u' = some d) (h : t ≤ u)
    (htleap : t.inLeapSecond = false) (huleap : u.inLeapSecond = false ∨ 0 ≤ days) : c ≤ d := by
  refine StoredTime.le_of_elapsed_le ?_ hc hd
  rw [elapsed_daysBefore ht (.inl htleap), elapsed_daysBefore hu huleap]
  have := elapsed_le h htleap
  omega

end PriceArchive
