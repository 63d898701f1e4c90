import PriceArchive.Work.Call

namespace PriceArchive

/-- What a work can ask for. -/
inductive Request where
  /-- An operation of the archive. -/
  | call (c : Call)
  /-- A unit of work inside this one. -/
  | nestedUnit
  /-- Whether operations join a transaction. -/
  | inTransaction
  | now
  /-- A row written as it is. -/
  | seed (row : SeedRow)
  | countRows
  /-- All brands, soft-deleted ones too. -/
  | dumpBrands
  /-- The end of the transaction, by hand. -/
  | rollBack
  /-- Rows that break a constraint which is checked at the end of the transaction. -/
  | breakDeferred

namespace Request

def Reply : Request → Type
  | call c => c.Reply
  | nestedUnit => Unit
  | inTransaction => Bool
  | now => Instant
  | seed _ => Nat
  | countRows => List (String × Nat)
  | dumpBrands => List (Brand Instant)
  | rollBack => Option StoreFault
  | breakDeferred => Nat

end Request

/-- The constraint that `breakDeferred` breaks. -/
def deferredConstraint : String := "deferred_x"

namespace Session

/-- Rolls the transaction back and goes on without one; the answer is the fault if there is none. -/
def rollBackByHand : Action (Option StoreFault) := do
  let s ← get
  match s.transaction with
  | some (.running start _) =>
    set { s with store := start, transaction := some .ended }
    return none
  | some .aborted =>
    set { s with transaction := some .ended }
    return none
  | some .ended | none => return some .notInTransaction

/-- Writes two rows that break a deferred constraint, and answers their number. -/
def breakDeferred : Action Nat := do
  let s ← get
  match s.transaction with
  | some (.running start _) =>
    set { s with transaction := some (.running start (some deferredConstraint)) }
    return 2
  | some .aborted => .fail (.query "break a deferred constraint" (.refused .transactionAborted))
  | some .ended | none =>
    .fail (.query "break a deferred constraint" (.refused (.duplicateKey deferredConstraint)))

def beginUnit : Action Unit := do
  let s ← get
  match s.transaction with
  | some _ => .fail .nestedUnit
  | none => do
    checkOut
    modify fun s => { s with transaction := some (.running s.store none) }

/-- Ends the transaction and keeps what was written, if that can be done. -/
def commit : Action Unit := do
  let s ← get
  match s.transaction with
  | some (.running start (some constraint)) =>
    set { s with store := start, transaction := none }
    .fail (.commitFailed (.refused (.duplicateKey constraint)) none)
  | some .ended =>
    set { s with transaction := none }
    .fail (.commitFailed .notInTransaction none)
  | some (.running _ none) | some .aborted | none => set { s with transaction := none }

/-- The session after its transaction is rolled back, if that can still be done. -/
def rolledBack (s : Session) : Session :=
  match s.transaction with
  | some (.running start _) => { s with store := start, transaction := none }
  | some .aborted | some .ended | none => { s with transaction := none }

end Session

/-- How a unit of work ended. -/
inductive Outcome (ε α : Type) where
  /-- No transaction could be begun, so the work was not run. -/
  | notBegun (e : Error)
  /-- The work ended with a value and is kept. -/
  | committed (a : α)
  /-- The work ended with an error and is undone. -/
  | failed (e : ε)
  /-- The work ended with a value, but it could not be kept and is undone. -/
  | uncommitted (a : α) (e : Error)

/-- The value of a unit of work or the error that it ends with. -/
def Outcome.result {ε α : Type} (ofError : Error → ε) : Outcome ε α → Except ε α
  | notBegun e => .error (ofError e)
  | committed a => .ok a
  | failed e => .error e
  | uncommitted _ e => .error (ofError e)

namespace Session

/-- Runs an action in a transaction of its own. -/
def asUnit {ε α : Type} (action : Action (Except ε α)) : Action (Outcome ε α) := do
  match ← Action.attempt beginUnit with
  | .error e => return .notBegun e
  | .ok () => fun s =>
    match action s with
    | (.ok (.ok a), s) =>
      match Action.attempt commit s with
      | (.ok (.ok ()), s) => (.ok (.committed a), s)
      | (.ok (.error e), s) => (.ok (.uncommitted a e), s)
      | (.error h, s) => (.error h, s)
    | (.ok (.error e), s) => (.ok (.failed e), rolledBack s)
    | (.error h, s) => (.error h, rolledBack s)

end Session

namespace Request

def perform : (r : Request) → Action r.Reply
  | call c => c.perform
  | nestedUnit => do
    let outcome ← Session.asUnit (pure (.ok ()))
    Action.ofResult (outcome.result id)
  | inTransaction => do return (← get).inTransaction
  | now => Action.now
  | seed row => Maintenance.seed row
  | countRows => Maintenance.countRows
  | dumpBrands => Brands.dump
  | rollBack => Session.rollBackByHand
  | breakDeferred => Session.breakDeferred

end Request

/-- A plan of requests that ends with a value or with an error of type `ε`. -/
inductive Work (ε α : Type) where
  | done (result : Except ε α)
  /-- A request, and how to go on after its answer. -/
  | ask (r : Request) (next : Except Error r.Reply → Work ε α)

namespace Work

variable {ε α β : Type}

/-- Runs the work in the session as it is. -/
def perform : Work ε α → Action (Except ε α)
  | done result => pure result
  | ask r next => do
    let reply ← Action.attempt r.perform
    (next reply).perform

/-- Runs the work as a unit: all of it is kept or nothing. -/
def performAsUnit (w : Work ε α) : Action (Outcome ε α) := Session.asUnit w.perform

/-- Runs the work as a unit, for its value or error. -/
def runAsUnit (w : Work Error α) : Action α := do
  let outcome ← w.performAsUnit
  Action.ofResult (outcome.result id)

/-- The work that ends with a value at once. -/
def value (a : α) : Work ε α := done (.ok a)

/-- The work that ends with an error at once. -/
def fail (e : ε) : Work ε α := done (.error e)

/-- One work and, if it ends with a value, another. -/
def andThen : Work ε α → (α → Work ε β) → Work ε β
  | done (.ok a), f => f a
  | done (.error e), _ => done (.error e)
  | ask r next, f => ask r fun reply => (next reply).andThen f

/-- One operation; its error ends the work. -/
def call (c : Call) : Work Error c.Reply := ask (.call c) done

/-- One request, with its error as a value. -/
def attempt (r : Request) : Work ε (Except Error r.Reply) := ask r value

/-- The work, with its error as a value. -/
def settled : Work Error α → Work ε (Except Error α)
  | done result => value result
  | ask r next => ask r fun reply => (next reply).settled

instance : Monad (Work ε) where
  pure := value
  bind := andThen

end Work

end PriceArchive
