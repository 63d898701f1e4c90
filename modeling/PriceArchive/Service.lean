import PriceArchive.Job.Cleanup
import PriceArchive.Log.Filter
import PriceArchive.Settings.Basic
import PriceArchive.Store.Maintenance

namespace PriceArchive

namespace Service

/-- A part of the service that writes log lines and may end it. -/
abbrev Startup (α : Type) := ExceptT Unit (StateM (List LogLine)) α

/-- The parts of the program that write log lines. -/
inductive Part where
  | main
  | connection
  | cleanup

/-- The target of a part's lines. -/
def Part.target : Part → String
  | .main => "market_data_store"
  | .connection => "market_data_store::database::connection"
  | .cleanup => "market_data_store::jobs::delisting_job"

/-- Writes a line. -/
def write (level : LogLevel) (part : Part) (message : String) : Startup Unit :=
  modify fun lines => lines ++ [⟨level, part.target, message⟩]

/-- Says what is done. -/
def info (part : Part) (message : String) : Startup Unit := write .info part message

/-- Says what went wrong and ends the service. -/
def abort {α : Type} (message : String) : Startup α := do
  write .error .main message
  throw ()

/-- The settings, or the end. -/
def readSettings (env : Environment) : Startup Settings :=
  match Settings.read env with
  | .ok settings => pure settings
  | .error e => abort ("❌ Invalid configuration: " ++ e.message)

/-- Reaches the store, or ends: the pool asks for its connections, and then one is taken from it. The
answer is the server after that. -/
def connect (settings : StoreSettings) (server : Server) : Startup Server := do
  info .main "🗄️  Initializing PostgreSQL connection..."
  info .connection "Establishing database connection pool..."
  if let some reason := server.refusal then
    abort ("❌ Failed to establish database connection: " ++
      (Error.poolUnavailable reason).message)
  info .connection ("Database pool created with max size: " ++ toString settings.poolSize.toNat)
  if let some reason := server.asked.refusal then
    abort ("❌ Failed to establish database connection: " ++
      (Error.connectionFailed reason).message)
  info .connection "Database connection successful"
  return server.asked.asked

/-- Brings the tables up to date that have the first `applied` migrations, or ends. -/
def migrate (server : Server) (applied : Nat) : Startup Unit := do
  if let some reason := server.refusal then
    abort ("❌ Failed to run migrations: " ++ (Error.poolUnavailable reason).message)
  info .connection ("Applied " ++ toString (Maintenance.applyPending applied) ++
    " pending migration(s)")
  info .main "✅ Database ready"

/-- Puts the cleanup on its schedule, or ends. -/
def schedule (settings : CleanupSettings) : Startup Unit := do
  info .main "⏰ Initializing cron scheduler..."
  match Cleanup.register settings.schedule with
  | .error e => abort ("❌ Failed to register delisting cleanup job: " ++ e.message)
  | .ok _ => pure ()
  info .cleanup ("Delisting cleanup job registered (" ++ settings.schedule ++ ")")
  info .main "✅ Cron scheduler started successfully"
  info .main ("   • Delisting cleanup: " ++ settings.schedule ++ " (retention " ++
    toString settings.retentionDays.toInt ++ " days)")

/-- The service up to where it waits. -/
def start (env : Environment) (server : Server) (applied : Nat) : Startup Unit := do
  let settings ← readSettings env
  let server ← connect settings.store server
  migrate server applied
  schedule settings.cleanup

/-- What the service says when it is told to stop. -/
def stop : Startup Unit := info .main "Shutting down..."

/-- A run of the service: the lines that the filter shows, and whether it came to wait. -/
structure Run where
  log : List LogLine
  succeeded : Bool
  deriving DecidableEq

namespace Run

/-- The exit status: one if the service ended by itself. -/
def status (r : Run) : UInt32 := if r.succeeded then 0 else 1

end Run

/-- What a part of the service does in an environment. -/
def observe (env : Environment) (part : Startup Unit) : Run :=
  let (result, lines) := part []
  ⟨lines.filter (LogFilter.ofEnvironment env).shows, result.isOk⟩

/-- A whole run of the service, which is told to stop when it has started. -/
def run (env : Environment) (server : Server) (applied : Nat) : Run :=
  observe env do
    start env server applied
    stop

end Service

end PriceArchive
