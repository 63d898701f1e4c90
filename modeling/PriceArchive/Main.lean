import PriceArchive.Service
import PriceArchive.Settings.EnvironmentFile

namespace PriceArchive

namespace Program

/-- The variables that the program takes from the environment of the process. -/
def variableNames : List String := "RUST_LOG" :: Settings.variableNames

/-- The environment of the process, as far as the program knows its variables. -/
def environment : IO Environment := do
  let values ← variableNames.filterMapM fun name => do
    return (← IO.getEnv name).map fun value => (name, value)
  return .ofList values

/-- All lines of a stream. -/
partial def readAll (stream : IO.FS.Stream) (text : String) : IO String := do
  let line ← stream.getLine
  if line.isEmpty then return text else readAll stream (text ++ line)

end Program

end PriceArchive

open PriceArchive in
/-- Runs the service and answers its exit status. -/
def main : IO UInt32 := do
  let text ← Program.readAll (← IO.getStdin) ""
  let env := EnvironmentFile.load text (← Program.environment)
  let run := Service.run env .live Maintenance.migrations.length
  for line in run.log do
    IO.println line.toText
  return run.status
