import PriceArchive.Job.Cleanup
import PriceArchive.Proofs.Action.Kept
import PriceArchive.Proofs.Calendar.DaysBefore
import PriceArchive.Settings.Basic

namespace PriceArchive

namespace CleanupSettings

variable {env : Environment} {settings : CleanupSettings}

theorem ofValues_eq_ok {retentionDays : Int64} {schedule : String}
    (h : ofValues retentionDays schedule = .ok settings) :
    settings.retentionDays = retentionDays ∧ settings.schedule = schedule := by
  unfold ofValues at h
  split at h
  · split at h
    · cases h
      exact ⟨rfl, rfl⟩
    · cases h
  · cases h

/-- The retention is the one that the environment writes, or a year where it writes no numeral. -/
theorem retentionDays_of_read (h : read env = .ok settings) :
    settings.retentionDays =
      ((env "DELISTING_RETENTION_DAYS").bind Numeral.signedWord64?).getD 365 :=
  (ofValues_eq_ok h).1

theorem retentionDays_toInt_pos (settings : CleanupSettings) : 0 < settings.retentionDays.toInt :=
  Int64.lt_iff_toInt_lt.mp settings.retentionDays_pos

/-- Going back by the retention does not pass the first instant. -/
def InReach (settings : CleanupSettings) (now : Instant) : Prop :=
  Instant.earliest.elapsed ≤
    now.elapsed - settings.retentionDays.toInt * secondsPerDay * nanosPerSecond

instance (settings : CleanupSettings) (now : Instant) : Decidable (settings.InReach now) :=
  inferInstanceAs (Decidable (_ ≤ _))

end CleanupSettings

/-- How many days lie between the first instant and 1970. -/
def Instant.daysUntilEpoch : Int := 96465292

/-- The years in which a clock reads: from 1970 through 9999. -/
def Instant.OnClock (now : Instant) : Prop := Instant.epoch ≤ now ∧ now.date.year ≤ 9999

namespace Cleanup

variable {env : Environment} {settings : CleanupSettings}

theorem run_of_no_threshold {days : Int64} {now : Instant} {o : TimeOverflow}
    (h : threshold days now = .error o) (s : Session) : run days now s = (.error (.overflow o), s) := by
  rw [run, h]
  rfl

theorem threshold_of_inReach {now : Instant} (h : settings.InReach now) :
    ∃ limit, threshold settings.retentionDays now = .ok limit ∧
      limit.elapsed = now.elapsed - settings.retentionDays.toInt * secondsPerDay * nanosPerSecond := by
  have hpos := settings.retentionDays_toInt_pos
  obtain ⟨hspan, -⟩ | ⟨-, hlt, -⟩ | ⟨-, -, limit, hlimit⟩ := Instant.daysBefore_cases now hpos
  · -- So many days are more than lie between the first instant and the last.
    have hmax := now.le_max
    have hnanos := now.nanos_lt
    rw [CleanupSettings.InReach, Instant.elapsed_earliest] at h
    unfold Instant.elapsed Instant.minSeconds Instant.maxSeconds maxSpanDays nanosPerSecond
      secondsPerDay at *
    omega
  · exact absurd h (Int.not_le.mpr hlt)
  · exact ⟨limit, hlimit, Instant.elapsed_daysBefore hlimit (.inr (Int.le_of_lt hpos))⟩

theorem threshold_of_not_inReach {now : Instant} (h : ¬ settings.InReach now) :
    threshold settings.retentionDays now =
      .error (if maxSpanDays < settings.retentionDays.toInt then .days else .difference) := by
  obtain ⟨hspan, herror⟩ | ⟨hspan, -, herror⟩ | ⟨-, hle, -⟩ :=
    Instant.daysBefore_cases now settings.retentionDays_toInt_pos
  · rw [if_pos hspan]
    exact herror
  · rw [if_neg (Int.not_lt.mpr hspan)]
    exact herror
  · exact absurd hle h

theorem inReach_of_le (h : settings.retentionDays.toInt ≤ Instant.daysUntilEpoch) {now : Instant}
    (hnow : Instant.epoch ≤ now) : settings.InReach now := by
  have hepoch : Instant.epoch.elapsed ≤ now.elapsed := Instant.elapsed_le hnow (by decide)
  have hstart : Instant.epoch.elapsed = 0 := by decide
  rw [CleanupSettings.InReach, Instant.elapsed_earliest]
  unfold Instant.daysUntilEpoch Instant.minSeconds nanosPerSecond secondsPerDay at *
  omega

/-- Settings are accepted with the retention that the environment writes, if it is positive. At a reading
of the clock they give a threshold, the time so many days before, exactly if that is no earlier than the
first instant; else a cleanup is broken off, with nothing done, because there is no such difference of
times or, from 106751991168 days on, no such span. So from 1970 through 9999 there always is a threshold
exactly if the retention is at most 96465292 days. -/
theorem threshold_answers_iff (hread : CleanupSettings.read env = .ok settings) :
    settings.retentionDays =
        ((env "DELISTING_RETENTION_DAYS").bind Numeral.signedWord64?).getD 365 ∧
      (∀ now, settings.InReach now → ∃ limit, threshold settings.retentionDays now = .ok limit ∧
        limit.elapsed =
          now.elapsed - settings.retentionDays.toInt * secondsPerDay * nanosPerSecond) ∧
      (∀ now, ¬ settings.InReach now → ∃ o, threshold settings.retentionDays now = .error o ∧
        o = (if maxSpanDays < settings.retentionDays.toInt then .days else .difference) ∧
        ∀ s, run settings.retentionDays now s = (.error (.overflow o), s)) ∧
      ((∀ now : Instant, now.OnClock → ∃ limit, threshold settings.retentionDays now = .ok limit) ↔
        settings.retentionDays.toInt ≤ Instant.daysUntilEpoch) := by
  refine ⟨CleanupSettings.retentionDays_of_read hread, fun now => threshold_of_inReach,
    fun now h => ?_, ?_, ?_⟩
  · have hnone := threshold_of_not_inReach h
    exact ⟨_, hnone, rfl, run_of_no_threshold hnone⟩
  · intro hall
    obtain ⟨limit, hlimit⟩ := hall .epoch ⟨by decide, by decide⟩
    -- The clock may read the start of 1970, and the retention reaches back from there.
    by_contra hlong
    rw [threshold_of_not_inReach] at hlimit
    · cases hlimit
    · rw [CleanupSettings.InReach, Instant.elapsed_earliest]
      have hstart : Instant.epoch.elapsed = 0 := by decide
      unfold Instant.daysUntilEpoch Instant.minSeconds nanosPerSecond secondsPerDay at *
      omega
  · intro hdays now hnow
    obtain ⟨limit, hlimit, -⟩ := threshold_of_inReach (inReach_of_le hdays hnow.1)
    exact ⟨limit, hlimit⟩

/-- An environment that writes a retention and nothing else. -/
def keptFor (days : String) : Environment := .ofList [("DELISTING_RETENTION_DAYS", days)]

/-- Settings with a retention and the usual schedule. -/
def settingsKeeping (days : Int64) (h : 0 < days) : CleanupSettings :=
  { CleanupSettings.standard with retentionDays := days, retentionDays_pos := h }

/-- A retention of one day too many is accepted, and the start of 1970 has no threshold then. -/
theorem accepted_retention_can_have_no_threshold :
    ¬ ∀ (env : Environment) (settings : CleanupSettings) (now : Instant),
      CleanupSettings.read env = .ok settings → now.OnClock →
        ∃ limit, threshold settings.retentionDays now = .ok limit := by
  intro hall
  obtain ⟨limit, hlimit⟩ := hall (keptFor "96465293") (settingsKeeping 96465293 (by decide)) .epoch
    (by decide +kernel) ⟨by decide, by decide⟩
  have hnone : threshold 96465293 .epoch = .error .difference := by decide +kernel
  cases hnone.symm.trans hlimit

theorem threshold_answers_longest :
    CleanupSettings.read (keptFor "96465292") = .ok (settingsKeeping 96465292 (by decide)) ∧
      (∀ now : Instant, now.OnClock → ∃ limit, threshold 96465292 now = .ok limit) ∧
      CleanupSettings.read (keptFor "106751991168") =
        .ok (settingsKeeping 106751991168 (by decide)) ∧
      ∃ o, threshold 106751991168 .epoch = .error o ∧ o = .days := by
  have hread : CleanupSettings.read (keptFor "96465292") =
      .ok (settingsKeeping 96465292 (by decide)) := by decide +kernel
  have hlong : CleanupSettings.read (keptFor "106751991168") =
      .ok (settingsKeeping 106751991168 (by decide)) := by decide +kernel
  obtain ⟨-, -, -, hall⟩ := threshold_answers_iff hread
  obtain ⟨-, -, hnone, -⟩ := threshold_answers_iff hlong
  obtain ⟨o, ho, hdays, -⟩ := hnone .epoch (by decide +kernel)
  exact ⟨hread, hall.mpr (by decide), hlong, o, ho, hdays⟩

end Cleanup

end PriceArchive
