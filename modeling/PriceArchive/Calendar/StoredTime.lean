import PriceArchive.Calendar.Instant

namespace PriceArchive

/-- The first microsecond that the store accepts: 24 November of the year -4713. -/
def StoredTime.minMicros : Int := -211813488000000000

/-- The last microsecond before the year 262143. -/
def StoredTime.maxMicros : Int := 8209320191999999999

/-- A time as the store keeps it. -/
structure StoredTime where
  /-- Microseconds from the start of 2000, in UTC. -/
  micros : Int
  min_le : StoredTime.minMicros ≤ micros
  le_max : micros ≤ StoredTime.maxMicros
  deriving DecidableEq

namespace StoredTime

/-- The seconds from the start of 1970 to the start of 2000. -/
def epochSeconds : Int := 946684800

/-- How many microseconds a second has. -/
def microsPerSecond : Int := 1000000

/-- The time in whole microseconds from the start of 2000, without the rest. -/
def truncate (t : Instant) : Int :=
  Int.tdiv ((t.seconds - epochSeconds) * nanosPerSecond + t.nanos) 1000

/-- A time as the store keeps it, if it accepts it. -/
def ofInstant? (t : Instant) : Option StoredTime :=
  if h : minMicros ≤ truncate t ∧ truncate t ≤ maxMicros then some ⟨truncate t, h.1, h.2⟩ else none

/-- The instant that a stored time denotes. -/
def toInstant (t : StoredTime) : Instant where
  seconds := t.micros / microsPerSecond + epochSeconds
  nanos := (t.micros % microsPerSecond).toNat * 1000
  min_le := by
    have := t.min_le
    simp only [minMicros, Instant.minSeconds, microsPerSecond, epochSeconds] at *
    omega
  le_max := by
    have := t.le_max
    simp only [maxMicros, Instant.maxSeconds, microsPerSecond, epochSeconds] at *
    omega
  nanos_lt := by
    simp only [microsPerSecond, nanosPerSecond]
    omega

instance : LT StoredTime := ⟨fun a b => a.micros < b.micros⟩

instance : LE StoredTime := ⟨fun a b => a.micros ≤ b.micros⟩

instance (a b : StoredTime) : Decidable (a < b) := inferInstanceAs (Decidable (a.micros < b.micros))

instance (a b : StoredTime) : Decidable (a ≤ b) := inferInstanceAs (Decidable (a.micros ≤ b.micros))

end StoredTime

end PriceArchive
