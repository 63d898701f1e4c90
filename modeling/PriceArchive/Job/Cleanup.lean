import PriceArchive.Job.Error
import PriceArchive.Schedule.Basic
import PriceArchive.Work.Basic

namespace PriceArchive

/-- What a cleanup removed. -/
structure CleanupReport where
  /-- Brands last reported before it were removed. -/
  threshold : Instant
  brandIds : List String
  symbols : List String
  dailyDeleted : Nat
  forAnalysisDeleted : Nat
  snapshotsDeleted : Nat
  deriving DecidableEq

namespace CleanupReport

/-- The report on a cleanup that removed nothing. -/
def nothing (threshold : Instant) : CleanupReport := ⟨threshold, [], [], 0, 0, 0⟩

/-- Whether no brand was removed. -/
def isEmpty (r : CleanupReport) : Bool := r.brandIds.isEmpty

end CleanupReport

namespace Cleanup

/-- The time before which a brand must have been reported last to be removed. -/
def threshold (retentionDays : Int64) (now : Instant) : Except TimeOverflow Instant :=
  now.daysBefore retentionDays.toInt

/-- The deletions of a cleanup. -/
def work (threshold : Instant) : Work Error CleanupReport := do
  let ids ← Work.call (.findStaleBrands threshold)
  if ids.isEmpty then
    return .nothing threshold
  else
    let brands : List (Brand Instant) ← Work.call (.deleteBrands ids)
    let brandIds := brands.map Brand.id
    let symbols := brands.map Brand.symbol
    let daily ← Work.call (.deleteDailyOfBrands brandIds)
    let forAnalysis ← Work.call (.deleteForAnalysisOfSymbols symbols)
    let snapshots ← Work.call (.deleteSnapshots brandIds)
    return ⟨threshold, brandIds, symbols, daily, forAnalysis, snapshots⟩

/-- Runs a cleanup as of `now` in a session without a transaction. -/
def run (retentionDays : Int64) (now : Instant) : Action CleanupReport := do
  let threshold ← Action.ofTime (threshold retentionDays now)
  (work threshold).runAsUnit

/-- Runs a cleanup as of the clock in a session without a transaction. -/
def runNow (retentionDays : Int64) : Action (Except JobError CleanupReport) := do
  let now ← Action.now
  fun s =>
    match run retentionDays now s with
    | (.ok report, s) => (.ok (.ok report), s)
    | (.error (.error e), s) => (.ok (.error (.archive e)), s)
    | (.error (.overflow o), s) => (.ok (.error (.brokenOff o.message)), s)

/-- The schedule on which cleanups are put. -/
def register (schedule : String) : Except JobError Schedule :=
  match Schedule.read? schedule with
  | some schedule => .ok schedule
  | none => .error (.schedule .unreadable)

end Cleanup

end PriceArchive
