import PriceArchive.Store.Error

namespace PriceArchive

/-- Why a job could not be put on a schedule. -/
inductive ScheduleError where
  /-- The text is no schedule. -/
  | unreadable
  deriving DecidableEq

/-- The wording of a schedule error. -/
def ScheduleError.message : ScheduleError → String
  | .unreadable => "ParseSchedule"

/-- What a job ends with when it has no answer. -/
inductive JobError where
  /-- An operation of the archive failed. -/
  | archive (e : Error)
  /-- The job could not be put on its schedule. -/
  | schedule (e : ScheduleError)
  /-- The job broke off. -/
  | brokenOff (reason : String)
  deriving DecidableEq

/-- The wording of a job's error; an error of the archive is worded as such. -/
def JobError.message : JobError → String
  | .archive e => e.message
  | .schedule e => "Scheduler error: " ++ e.message
  | .brokenOff reason => "Job task failed: " ++ reason

end PriceArchive
