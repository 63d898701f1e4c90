namespace PriceArchive

/-- Why the store turns down a statement. -/
inductive Refusal where
  /-- A text holds the character U+0000. -/
  | nulCharacter
  /-- A time is before the first one that the store accepts. -/
  | timeOutOfRange
  /-- The row would repeat a key. -/
  | duplicateKey (constraint : String)
  /-- The row breaks a condition on its columns. -/
  | checkViolated (table constraint : String)
  /-- One statement proposes two rows for one stored row. -/
  | updatedTwice
  /-- A statement of the same transaction was turned down before. -/
  | transactionAborted
  deriving DecidableEq

def Refusal.message : Refusal → String
  | .nulCharacter => "invalid byte sequence for encoding \"UTF8\": 0x00"
  | .timeOutOfRange => "timestamp out of range"
  | .duplicateKey constraint =>
    "duplicate key value violates unique constraint \"" ++ constraint ++ "\""
  | .checkViolated table constraint =>
    "new row for relation \"" ++ table ++ "\" violates check constraint \"" ++ constraint ++ "\""
  | .updatedTwice => "ON CONFLICT DO UPDATE command cannot affect row a second time"
  | .transactionAborted =>
    "current transaction is aborted, commands ignored until end of transaction block"

/-- What can go wrong between the program and the store. -/
inductive StoreFault where
  | refused (r : Refusal)
  | noRow
  | notInTransaction
  | alreadyInTransaction
  | brokenTransactionManager
  | rollbackRequested
  | unbuildableQuery (text : String)
  | unreadableValue (text : String)
  | unwritableValue (text : String)
  deriving DecidableEq

def StoreFault.message : StoreFault → String
  | .refused r => r.message
  | .noRow => "Record not found"
  | .notInTransaction => "Cannot perform this operation outside of a transaction"
  | .alreadyInTransaction => "Cannot perform this operation while a transaction is open"
  | .brokenTransactionManager => "The transaction manager is broken"
  | .rollbackRequested => "You have asked diesel to rollback the transaction"
  | .unbuildableQuery text | .unreadableValue text | .unwritableValue text => text

/-- What an operation ends with when it has no answer. -/
inductive Error where
  /-- No connection could be had from the pool. -/
  | poolUnavailable (reason : String)
  /-- The first connection failed. -/
  | connectionFailed (reason : String)
  /-- The tables could not be set up. -/
  | migrationFailed (reason : String)
  /-- A statement failed. -/
  | query (operation : String) (fault : StoreFault)
  /-- What was asked for is not there. -/
  | notFound (what : String)
  /-- The arguments make no sense. -/
  | invalidInput (reason : String)
  /-- A price or volume does not fit the type it is converted to. -/
  | conversion (reason : String)
  /-- A unit of work was begun inside another. -/
  | nestedUnit
  /-- The work was done but could not be kept. -/
  | commitFailed (fault : StoreFault) (rollback : Option StoreFault)
  deriving DecidableEq

namespace Error

def message : Error → String
  | .poolUnavailable reason => "Connection pool error: " ++ reason
  | .connectionFailed reason => "Connection failed: " ++ reason
  | .migrationFailed reason => "Migration error: " ++ reason
  | .query operation fault => "Failed to " ++ operation ++ ": " ++ fault.message
  | .notFound what => "Record not found: " ++ what
  | .invalidInput reason => "Invalid input: " ++ reason
  | .conversion reason => "Numeric conversion error: " ++ reason
  | .nestedUnit => "Nested transactions are not supported"
  | .commitFailed fault none => "Failed to commit transaction: " ++ fault.message
  | .commitFailed fault (some rollback) =>
    "Failed to commit transaction: " ++ fault.message ++ " (rollback also failed: " ++
      rollback.message ++ ")"

instance : ToString Error := ⟨message⟩

/-- Whether something was asked for that is not there. -/
def isNotFound : Error → Bool
  | .notFound _ => true
  | _ => false

/-- Whether the arguments make no sense. -/
def isInvalidInput : Error → Bool
  | .invalidInput _ => true
  | _ => false

/-- The fault of the store behind an error. -/
def fault? : Error → Option StoreFault
  | .query _ fault => some fault
  | .commitFailed fault _ => some fault
  | _ => none

end Error

end PriceArchive
