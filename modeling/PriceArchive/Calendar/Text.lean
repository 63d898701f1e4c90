import PriceArchive.Calendar.Instant
import PriceArchive.Text.Blank
import PriceArchive.Text.Digits

namespace PriceArchive

namespace Instant

/-- The characters of a year: four digits, or a sign and at least four. -/
def yearChars (year : Int) : List Char :=
  if 0 ≤ year ∧ year ≤ 9999 then paddedDigits 4 year.toNat
  else (if year < 0 then '-' else '+') :: paddedDigits 4 year.natAbs

/-- The characters of a date. -/
def dateChars (d : Date) : List Char :=
  yearChars d.year ++ '-' :: paddedDigits 2 d.month ++ '-' :: paddedDigits 2 d.day

/-- The characters of a fraction of a second: 0, 3, 6 or 9 digits after a point. -/
def fractionChars (nanos : Nat) : List Char :=
  if nanos = 0 then []
  else if nanos % 1000000 = 0 then '.' :: paddedDigits 3 (nanos / 1000000)
  else if nanos % 1000 = 0 then '.' :: paddedDigits 6 (nanos / 1000)
  else '.' :: paddedDigits 9 nanos

/-- The characters of a time of day; in a leap second the seconds count on to 60. -/
def timeChars (secondOfDay nanos : Nat) : List Char :=
  let leap := decide (nanosPerSecond ≤ nanos)
  let second := secondOfDay % 60 + if leap then 1 else 0
  let fraction := if leap then nanos - nanosPerSecond else nanos
  paddedDigits 2 (secondOfDay / 3600) ++ ':' :: paddedDigits 2 (secondOfDay / 60 % 60) ++
    ':' :: paddedDigits 2 second ++ fractionChars fraction

/-- The characters of an instant. -/
def toChars (t : Instant) : List Char :=
  dateChars t.date ++ 'T' :: timeChars t.secondOfDay t.nanos ++ ['Z']

/-- The text of an instant. -/
def toText (t : Instant) : String := String.ofList t.toChars

instance : ToString Instant := ⟨toText⟩

/-- Reads a number of at most `limit` digits after white space. -/
def readNumber (limit : Nat) (cs : List Char) : Option (Nat × List Char) := do
  let (run, rest) ← takeDigits limit (dropBlanks cs)
  return (foldDigits 0 run, rest)

/-- Reads a year: at most four digits, or a sign and any number of them. -/
def readYear (cs : List Char) : Option (Int × List Char) :=
  match dropBlanks cs with
  | '-' :: rest => do
    let (run, rest) ← takeAllDigits rest
    return (-(foldDigits 0 run : Int), rest)
  | '+' :: rest => do
    let (run, rest) ← takeAllDigits rest
    return ((foldDigits 0 run : Int), rest)
  | cs => do
    let (run, rest) ← takeDigits 4 cs
    return ((foldDigits 0 run : Int), rest)

/-- Reads one mark after white space. -/
def readMark (mark : Char) (cs : List Char) : Option (List Char) :=
  match dropBlanks cs with
  | c :: rest => if c = mark then some rest else none
  | [] => none

/-- Whether there are instants in the year. -/
def isYear (year : Int) : Bool := decide (-262143 ≤ year) && decide (year ≤ 262142)

/-- Reads a date that exists. -/
def readDate (cs : List Char) : Option (Date × List Char) := do
  let (year, cs) ← readYear cs
  let cs ← readMark '-' cs
  let (month, cs) ← readNumber 2 cs
  let cs ← readMark '-' cs
  let (day, cs) ← readNumber 2 cs
  let date : Date := ⟨year, month, day⟩
  if date.Valid ∧ isYear year then some (date, cs) else none

/-- Reads the letter or the space between date and time. -/
def readSeparator : List Char → Option (List Char)
  | c :: rest => if c = 'T' || c = 't' || c = ' ' then some rest else none
  | [] => none

/-- Reads the fraction of a second, in nanoseconds. -/
def readFraction : List Char → Option (Nat × List Char)
  | '.' :: rest => do
    let (run, rest) ← takeDigits 9 rest
    let nanos := foldDigits 0 (run ++ List.replicate (9 - run.length) '0')
    return (nanos, rest.dropWhile Char.isDigit)
  | cs => some (0, cs)

/-- Reads a time of day: the seconds since midnight and the nanoseconds. Second 60 is the leap
second after second 59. -/
def readTime (cs : List Char) : Option ((Nat × Nat) × List Char) := do
  let (hour, cs) ← readNumber 2 cs
  let cs ← readMark ':' cs
  let (minute, cs) ← readNumber 2 cs
  let cs ← readMark ':' cs
  let (second, cs) ← readNumber 2 cs
  let (nanos, cs) ← readFraction cs
  if hour < 24 ∧ minute < 60 ∧ second ≤ 60 then
    let start := hour * 3600 + minute * 60
    if second = 60 then some ((start + 59, nanos + nanosPerSecond), cs)
    else some ((start + second, nanos), cs)
  else
    none

/-- Reads the hours and minutes of an offset from UTC, in minutes. Colons and white space may stand
between them. -/
def readHoursMinutes : List Char → Option (Nat × List Char)
  | h1 :: h2 :: rest => do
    let hours ← digits? [h1, h2]
    match rest.dropWhile fun c => c = ':' || isBlank c with
    | m1 :: m2 :: rest => do
      let minutes ← digits? [m1, m2]
      if minutes < 60 ∧ hours < 24 then some (hours * 60 + minutes, rest) else none
    | _ => none
  | _ => none

/-- Reads an offset from UTC, in minutes. -/
def readOffset (cs : List Char) : Option (Int × List Char) :=
  match cs with
  | 'Z' :: rest | 'z' :: rest => some (0, rest)
  | '+' :: rest => (readHoursMinutes rest).map fun (n, rest) => ((n : Int), rest)
  | '-' :: rest | '\u2212' :: rest => (readHoursMinutes rest).map fun (n, rest) => (-(n : Int), rest)
  | u :: t :: c :: rest =>
    if [u, t, c].map Char.toUpper = ['U', 'T', 'C'] then some (0, rest) else none
  | _ => none

/-- Reads the characters of an instant. -/
def readChars (cs : List Char) : Option Instant := do
  let (date, cs) ← readDate cs
  let cs ← readSeparator cs
  let ((secondOfDay, nanos), cs) ← readTime cs
  let (offset, cs) ← readOffset (dropBlanks cs)
  if (dropBlanks cs).isEmpty then
    ofParts? (date.toDays * secondsPerDay + secondOfDay - offset * 60) nanos
  else
    none

/-- Reads an instant. -/
def read? (text : String) : Option Instant := readChars text.toList

end Instant

end PriceArchive
