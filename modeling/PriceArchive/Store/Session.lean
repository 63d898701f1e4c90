import PriceArchive.Store.Basic
import PriceArchive.Store.TextOrder

namespace PriceArchive

/-- What those who ask for a connection to the store get, one after the other. -/
inductive Server where
  /-- Each of them gets one. -/
  | live
  /-- None of them gets one, for this reason. -/
  | down (reason : String)
  /-- The next one gets a connection, or none for a reason; `later` is for those who ask after it. -/
  | next (refusal : Option String) (later : Server)
  deriving DecidableEq

namespace Server

/-- Why the next one who asks gets no connection. -/
def refusal : Server → Option String
  | live => none
  | down reason => some reason
  | next refusal _ => refusal

/-- The server after one has asked. -/
def asked : Server → Server
  | live => live
  | down reason => down reason
  | next _ later => later

end Server

/-- Where clock readings and fresh ids come from, and how many have been taken. -/
structure Supply where
  clock : Nat → Instant
  ids : Nat → String
  ticks : Nat
  issued : Nat

/-- How a transaction stands. -/
inductive Transaction where
  /-- Statements run. `start` is the store without what it wrote, which is what is committed, and
  `deferred` a constraint that will be found broken at the end. -/
  | running (start : Store) (deferred : Option String)
  /-- A statement was turned down; the store is already as it was before the transaction. -/
  | aborted
  /-- It was rolled back, so that statements are kept at once; the unit of work goes on. -/
  | ended
  deriving DecidableEq

/-- The program at work on a store. -/
structure Session where
  server : Server
  store : Store
  transaction : Option Transaction
  supply : Supply
  /-- How the store orders texts. -/
  order : TextOrder

/-- Why an action has no value. -/
inductive Halt where
  | error (e : Error)
  | overflow (o : TimeOverflow)
  deriving DecidableEq

/-- Something done in a session. -/
abbrev Action (α : Type) := ExceptT Halt (StateM Session) α

namespace Action

def fail {α : Type} (e : Error) : Action α := throw (.error e)

/-- The value of a result, or the end with its error. -/
def ofResult {α : Type} : Except Error α → Action α
  | .ok a => pure a
  | .error e => fail e

/-- A conversion, with its error as an error of the library. -/
def ofConversion {α : Type} : Except ConversionError α → Action α
  | .ok a => pure a
  | .error e => fail (.conversion e.message)

def ofTime {α : Type} : Except TimeOverflow α → Action α
  | .ok a => pure a
  | .error o => throw (.overflow o)

def now : Action Instant := do
  let s ← get
  set { s with supply := { s.supply with ticks := s.supply.ticks + 1 } }
  return s.supply.clock s.supply.ticks

def freshId : Action String := do
  let s ← get
  set { s with supply := { s.supply with issued := s.supply.issued + 1 } }
  return s.supply.ids s.supply.issued

/-- An error of an action as a value; a calculation with times that has no answer still ends it. -/
def attempt {α : Type} (a : Action α) : Action (Except Error α) := fun s =>
  match a s with
  | (.ok x, s) => (.ok (.ok x), s)
  | (.error (.error e), s) => (.ok (.error e), s)
  | (.error (.overflow o), s) => (.error (.overflow o), s)

end Action

/-- What the store does on one request, all of it or nothing. -/
abbrev Statement (α : Type) := Store → Except Refusal (α × Store)

namespace Statement

def read {α : Type} (f : Store → Except Refusal α) : Statement α := fun s => (f s).map fun a => (a, s)

end Statement

namespace Session

/-- A session with no transaction on a store without rows, which orders texts by their code points. -/
def start (server : Server) (clock : Nat → Instant) (ids : Nat → String) : Session :=
  ⟨server, .empty, none, ⟨clock, ids, 0, 0⟩, .codePoints⟩

/-- The session on a store that orders texts in some way. -/
def orderedBy (s : Session) (order : TextOrder) : Session := { s with order := order }

/-- Does what the store's order of texts tells. -/
def withOrder {α : Type} (f : TextOrder → Action α) : Action α := fun s => f s.order s

/-- Whether operations join a transaction. -/
def inTransaction (s : Session) : Bool := s.transaction.isSome

/-- Takes a connection. -/
def checkOut : Action Unit := do
  let s ← get
  set { s with server := s.server.asked }
  match s.server.refusal with
  | none => return
  | some reason => .fail (.poolUnavailable reason)

/-- Runs a statement that is kept at once. -/
def runAlone {α : Type} (operation : String) (statement : Statement α) : Action α := do
  let s ← get
  match statement s.store with
  | .ok (a, store) =>
    set { s with store := store }
    return a
  | .error r => .fail (.query operation (.refused r))

/-- Runs a statement in a transaction that runs; a refusal aborts the transaction. -/
def runInside {α : Type} (start : Store) (operation : String) (statement : Statement α) :
    Action α := do
  let s ← get
  match statement s.store with
  | .ok (a, store) =>
    set { s with store := store }
    return a
  | .error r =>
    set { s with store := start, transaction := some .aborted }
    .fail (.query operation (.refused r))

/-- Runs a statement, without a transaction on a connection of its own; `operation` says in an error
what it was for. -/
def run {α : Type} (operation : String) (statement : Statement α) : Action α := do
  let s ← get
  match s.transaction with
  | some (.running start _) => runInside start operation statement
  | some .aborted => .fail (.query operation (.refused .transactionAborted))
  | some .ended => runAlone operation statement
  | none => do
    checkOut
    runAlone operation statement

/-- Runs the statements of a batch and adds up the numbers of rows. -/
def runAll (operation : String) : List (Statement Nat) → Action Nat
  | [] => pure 0
  | statement :: rest => do
    let n ← run operation statement
    let m ← runAll operation rest
    return n + m

end Session

end PriceArchive
