import PriceArchive.Calendar.Date

namespace PriceArchive

/-- How many nanoseconds a second has. -/
def nanosPerSecond : Nat := 1000000000

/-- How many seconds a day has. -/
def secondsPerDay : Int := 86400

/-- The first second of the year -262143. -/
def Instant.minSeconds : Int := -8334601228800

/-- The last second of the year 262142. -/
def Instant.maxSeconds : Int := 8210266876799

/-- A moment in time, to the nanosecond. -/
structure Instant where
  /-- Seconds from the start of 1970, in UTC. -/
  seconds : Int
  /-- Nanoseconds after them; a billion or more inside a leap second. -/
  nanos : Nat
  min_le : Instant.minSeconds ≤ seconds
  le_max : seconds ≤ Instant.maxSeconds
  nanos_lt : nanos < 2 * nanosPerSecond
  deriving DecidableEq

namespace Instant

/-- The instant with these seconds and nanoseconds, if there is one. -/
def ofParts? (seconds : Int) (nanos : Nat) : Option Instant :=
  if h : (minSeconds ≤ seconds ∧ seconds ≤ maxSeconds) ∧ nanos < 2 * nanosPerSecond then
    some ⟨seconds, nanos, h.1.1, h.1.2, h.2⟩
  else
    none

/-- The start of a second, if it is in range. -/
def ofSeconds? (seconds : Int) : Option Instant := ofParts? seconds 0

/-- 1970-01-01T00:00:00Z. -/
def epoch : Instant := ⟨0, 0, by decide, by decide, by decide⟩

/-- The first instant. -/
def earliest : Instant := ⟨minSeconds, 0, by decide, by decide, by decide⟩

/-- The last instant that is in no leap second. -/
def latest : Instant := ⟨maxSeconds, 999999999, by decide, by decide, by decide⟩

instance : Inhabited Instant := ⟨epoch⟩

/-- An instant may lie half a second inside a leap second. -/
theorem half_leap_lt : 1500000000 < 2 * nanosPerSecond := by decide

/-- One instant is not after another; a leap second comes before the second that follows it. -/
def Le (a b : Instant) : Prop := a.seconds < b.seconds ∨ (a.seconds = b.seconds ∧ a.nanos ≤ b.nanos)

instance : LE Instant := ⟨Le⟩

instance (a b : Instant) : Decidable (a ≤ b) := inferInstanceAs (Decidable (_ ∨ _))

/-- One instant is before another. -/
def Lt (a b : Instant) : Prop := a.seconds < b.seconds ∨ (a.seconds = b.seconds ∧ a.nanos < b.nanos)

instance : LT Instant := ⟨Lt⟩

instance (a b : Instant) : Decidable (a < b) := inferInstanceAs (Decidable (_ ∨ _))

/-- The number of the day, counted from 1970-01-01. -/
def dayNumber (t : Instant) : Int := t.seconds / secondsPerDay

/-- The calendar date in UTC. -/
def date (t : Instant) : Date := .ofDays t.dayNumber

/-- The seconds since midnight. -/
def secondOfDay (t : Instant) : Nat := (t.seconds % secondsPerDay).toNat

/-- Whether the instant lies in a leap second. -/
def inLeapSecond (t : Instant) : Bool := decide (nanosPerSecond ≤ t.nanos)

/-- Midnight of the instant's day, in UTC. -/
def startOfDay (t : Instant) : Instant where
  seconds := t.dayNumber * secondsPerDay
  nanos := 0
  min_le := by
    have := t.min_le
    simp only [dayNumber, minSeconds, secondsPerDay] at *
    omega
  le_max := by
    have := t.le_max
    simp only [dayNumber, maxSeconds, secondsPerDay] at *
    omega
  nanos_lt := by decide

/-- The instant so many days later, if it is in range. Moving out of a leap second, time runs on
from the second before it forwards and from the second after it backwards. -/
def addDays (t : Instant) (days : Int) : Option Instant :=
  if days = 0 then some t
  else if t.inLeapSecond then
    let from' := if 0 < days then t.seconds else t.seconds + 1
    ofParts? (from' + days * secondsPerDay) (t.nanos - nanosPerSecond)
  else
    ofParts? (t.seconds + days * secondsPerDay) t.nanos

end Instant

/-- A calculation with times that has no answer. -/
inductive TimeOverflow where
  /-- The sum is past the last instant. -/
  | sum
  /-- The difference is before the first instant, or past the last. -/
  | difference
  /-- So many days are no span of time. -/
  | days
  deriving DecidableEq

/-- The wording of an overflow. -/
def TimeOverflow.message : TimeOverflow → String
  | .sum => "`DateTime + TimeDelta` overflowed"
  | .difference => "`DateTime - TimeDelta` overflowed"
  | .days => "TimeDelta::days out of bounds"

/-- The largest number of days that is a span of time: spans are counted in milliseconds, of 63
bits. -/
def maxSpanDays : Int := 106751991167

/-- The instant so many days before `t`. -/
def Instant.daysBefore (t : Instant) (days : Int) : Except TimeOverflow Instant :=
  if days < -maxSpanDays ∨ maxSpanDays < days then .error .days
  else
    match t.addDays (-days) with
    | some t => .ok t
    | none => .error .difference

/-- Midnight after the instant's day. -/
def Instant.endOfDay (t : Instant) : Except TimeOverflow Instant :=
  match t.startOfDay.addDays 1 with
  | some t => .ok t
  | none => .error .sum

end PriceArchive
