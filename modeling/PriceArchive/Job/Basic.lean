import PriceArchive.Job.Cleanup
import PriceArchive.Job.Ingest
import PriceArchive.Store.Overlay

namespace PriceArchive

namespace Session

/-- What everyone finds in the store: not what a transaction that runs has written. -/
def committed (s : Session) : Store :=
  match s.transaction with
  | some (.running start _) => start
  | some .aborted | some .ended | none => s.store

/-- The session as others find it. -/
def outside (s : Session) : Session := { s with store := s.committed, transaction := none }

/-- Runs an action on a connection of its own, also while a transaction runs in the session: it finds what
is committed, and what it keeps is there for the transaction at once. There is no outcome if the two are
in each other's way, for then the action waits for the end of the transaction, which waits for it. -/
def beside {α : Type} (action : Action α) (s : Session) : Option (Except Halt α × Session) :=
  match s.transaction with
  | none => some (action s)
  | some (.running start deferred) =>
    let (answer, t) := action s.outside
    if Store.collide start s.store t.store then none
    else some (answer,
      { t with
        store := .overlaid start s.store t.store
        transaction := some (.running t.store deferred) })
  | some transaction =>
    let (answer, t) := action s.outside
    some (answer, { t with transaction := some transaction })

end Session

/-- A job with what it is given. -/
inductive Job where
  | ingest (batch : List (NewQuote Instrument))
  | cleanup (retentionDays : Int64) (now : Instant)
  /-- A cleanup as of the clock. -/
  | cleanupNow (retentionDays : Int64)

namespace Job

def Reply : Job → Type
  | ingest _ => IngestReport
  | cleanup .. => CleanupReport
  | cleanupNow _ => Except JobError CleanupReport

/-- Does the job in a session that has no transaction. -/
def perform : (j : Job) → Action j.Reply
  | ingest batch => Ingest.run batch
  | cleanup retentionDays now => Cleanup.run retentionDays now
  | cleanupNow retentionDays => Cleanup.runNow retentionDays

/-- Runs the job beside whatever the session is at: it takes part in no transaction but its own. -/
def run (j : Job) (s : Session) : Option (Except Halt j.Reply × Session) := s.beside j.perform

end Job

end PriceArchive
