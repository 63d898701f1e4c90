import PriceArchive.Settings.Environment
import PriceArchive.Text.Blank
import PriceArchive.Text.Numeral

namespace PriceArchive

/-- Why settings make no sense. -/
inductive SettingsError where
  | noUrl
  | emptyPool
  /-- Nobody would wait for a connection. -/
  | noTimeout
  /-- Brands would be kept for no day at all. -/
  | noRetention
  /-- The schedule has fewer than six fields. -/
  | shortSchedule (schedule : String)
  deriving DecidableEq

def SettingsError.message : SettingsError → String
  | .noUrl => "DATABASE_URL environment variable is required"
  | .emptyPool => "DB_POOL_MAX_SIZE must be greater than 0"
  | .noTimeout => "DB_CONNECTION_TIMEOUT_SECS must be greater than 0"
  | .noRetention => "DELISTING_RETENTION_DAYS must be greater than 0"
  | .shortSchedule schedule =>
    "Invalid DELISTING_CRON: " ++ schedule ++ ". Expected six fields starting with seconds"

/-- How to reach the store. -/
structure StoreSettings where
  url : String
  poolSize : UInt32
  /-- How many seconds a caller waits for a connection. -/
  timeoutSeconds : UInt64
  url_ne_empty : url ≠ ""
  poolSize_ne_zero : poolSize ≠ 0
  timeoutSeconds_ne_zero : timeoutSeconds ≠ 0
  deriving DecidableEq

namespace StoreSettings

/-- The settings of a store on the same machine. -/
def standard : StoreSettings where
  url := "postgresql://localhost/market_data"
  poolSize := 20
  timeoutSeconds := 30
  url_ne_empty := by decide
  poolSize_ne_zero := by decide
  timeoutSeconds_ne_zero := by decide

/-- How many milliseconds a caller waits for a connection. -/
def timeoutMillis (s : StoreSettings) : Nat := s.timeoutSeconds.toNat * 1000

/-- Settings from their values, if these make sense. -/
def ofValues (url : String) (poolSize : UInt32) (timeoutSeconds : UInt64) :
    Except SettingsError StoreSettings :=
  if hu : url = "" then .error .noUrl
  else if hp : poolSize = 0 then .error .emptyPool
  else if ht : timeoutSeconds = 0 then .error .noTimeout
  else .ok ⟨url, poolSize, timeoutSeconds, hu, hp, ht⟩

def read (env : Environment) : Except SettingsError StoreSettings :=
  ofValues ((env "DATABASE_URL").getD "")
    (((env "DB_POOL_MAX_SIZE").bind Numeral.word32?).getD standard.poolSize)
    (((env "DB_CONNECTION_TIMEOUT_SECS").bind Numeral.word64?).getD standard.timeoutSeconds)

end StoreSettings

/-- How and when stored brands are cleaned up. -/
structure CleanupSettings where
  /-- For how many days a brand is kept that is no longer reported. -/
  retentionDays : Int64
  /-- When to clean up. -/
  schedule : String
  retentionDays_pos : 0 < retentionDays
  six_le_wordCount : 6 ≤ wordCount schedule
  deriving DecidableEq

namespace CleanupSettings

/-- Every day at three o'clock, what was not reported for a year. -/
def standard : CleanupSettings where
  retentionDays := 365
  schedule := "0 0 3 * * *"
  retentionDays_pos := by decide
  six_le_wordCount := by decide

/-- Settings from their values, if these make sense. -/
def ofValues (retentionDays : Int64) (schedule : String) : Except SettingsError CleanupSettings :=
  if hr : 0 < retentionDays then
    if hs : 6 ≤ wordCount schedule then .ok ⟨retentionDays, schedule, hr, hs⟩
    else .error (.shortSchedule schedule)
  else .error .noRetention

def read (env : Environment) : Except SettingsError CleanupSettings :=
  ofValues
    (((env "DELISTING_RETENTION_DAYS").bind Numeral.signedWord64?).getD standard.retentionDays)
    ((env "DELISTING_CRON").getD standard.schedule)

end CleanupSettings

/-- All settings of the service. -/
structure Settings where
  store : StoreSettings
  cleanup : CleanupSettings
  deriving DecidableEq

namespace Settings

/-- The settings that count where nothing else is said. -/
def standard : Settings := ⟨.standard, .standard⟩

/-- Reads the settings, those of the store first. -/
def read (env : Environment) : Except SettingsError Settings := do
  let store ← StoreSettings.read env
  let cleanup ← CleanupSettings.read env
  return ⟨store, cleanup⟩

/-- The variables that settings are read from. -/
def variableNames : List String :=
  ["DATABASE_URL", "DB_POOL_MAX_SIZE", "DB_CONNECTION_TIMEOUT_SECS", "DELISTING_RETENTION_DAYS",
    "DELISTING_CRON"]

end Settings

end PriceArchive
