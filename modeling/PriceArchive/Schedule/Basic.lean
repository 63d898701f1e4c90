import PriceArchive.Schedule.Field

namespace PriceArchive

/-- When something is due, by the values that count for each unit. -/
structure Schedule where
  seconds : List Nat
  minutes : List Nat
  hours : List Nat
  daysOfMonth : List Nat
  months : List Nat
  daysOfWeek : List Nat
  /-- The years that count, if not all do. -/
  years : Option (List Nat)
  deriving DecidableEq

namespace Schedule

/-- Every hour. -/
def hourly : Schedule :=
  ⟨[0], [0], TimeUnit.hour.values, TimeUnit.dayOfMonth.values, TimeUnit.month.values,
    TimeUnit.dayOfWeek.values, none⟩

/-- Every day at midnight. -/
def daily : Schedule := { hourly with hours := [0] }

/-- Every Sunday at midnight. -/
def weekly : Schedule := { daily with daysOfWeek := [1] }

/-- Every first day of a month at midnight. -/
def monthly : Schedule := { daily with daysOfMonth := [1] }

/-- Every first day of a year at midnight. -/
def yearly : Schedule := { monthly with months := [1] }

/-- The schedules that have a name. -/
def named : List (String × Schedule) :=
  [("@yearly", yearly), ("@monthly", monthly), ("@weekly", weekly), ("@daily", daily),
    ("@hourly", hourly)]

/-- Reads the name of a schedule, with the white space around it. -/
def readNamed (cs : List Char) : Option (Schedule × List Char) :=
  named.findSome? fun (name, schedule) =>
    if name.toList.isPrefixOf (Field.skipSpace cs) then
      some (schedule, Field.skipSpace ((Field.skipSpace cs).drop name.length))
    else none

/-- Reads the field of the years if there is one. -/
def readYears (cs : List Char) : Option (List Nat) × List Char :=
  match Field.readValues .year cs with
  | some (years, rest) => (some years, rest)
  | none => (none, cs)

/-- Reads the fields of a schedule. -/
def readFields (cs : List Char) : Option (Schedule × List Char) := do
  let (seconds, cs) ← Field.readValues .second cs
  let (minutes, cs) ← Field.readValues .minute cs
  let (hours, cs) ← Field.readValues .hour cs
  let (daysOfMonth, cs) ← Field.readValues .dayOfMonth cs
  let (months, cs) ← Field.readValues .month cs
  let (daysOfWeek, cs) ← Field.readValues .dayOfWeek cs
  let (years, cs) := readYears cs
  return (⟨seconds, minutes, hours, daysOfMonth, months, daysOfWeek, years⟩, cs)

/-- The schedule that a text writes. -/
def read? (text : String) : Option Schedule := do
  let (schedule, rest) ← (readNamed text.toList).or (readFields text.toList)
  if rest.isEmpty then some schedule else none

end Schedule

end PriceArchive
