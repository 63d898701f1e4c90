namespace PriceArchive

/-- How much a log line matters; errors matter most. -/
inductive LogLevel where
  | error
  | warning
  | info
  | debug
  | trace
  deriving DecidableEq

namespace LogLevel

/-- The place among the levels; a level that matters less has a greater one. -/
def rank : LogLevel → Nat
  | error => 1
  | warning => 2
  | info => 3
  | debug => 4
  | trace => 5

/-- The name of the level. -/
def name : LogLevel → String
  | error => "ERROR"
  | warning => "WARN"
  | info => "INFO"
  | debug => "DEBUG"
  | trace => "TRACE"

end LogLevel

/-- A log line. -/
structure LogLine where
  level : LogLevel
  /-- The part of the program that says it. -/
  target : String
  message : String
  deriving DecidableEq

namespace LogLine

/-- The text of a line. -/
def toText (line : LogLine) : String := line.level.name ++ " " ++ line.target ++ ": " ++ line.message

end LogLine

end PriceArchive
