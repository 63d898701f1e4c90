import PriceArchive.Model.Filter
import PriceArchive.Store.Binding
import PriceArchive.Store.Session

namespace PriceArchive

/-- The largest number of rows in one statement. -/
def rowsPerStatement : Nat := 1000

namespace Brands

def bySymbol {τ : Type} (order : TextOrder) (a b : Brand τ) : Bool := order.le a.symbol b.symbol

def byId {τ : Type} (order : TextOrder) (a b : Brand τ) : Bool := order.le a.id b.id

def active (rows : List BrandRow) : List BrandRow := rows.filter Brand.isActive

/-- A stored brand as it is read. -/
def ofRow (row : BrandRow) : Brand Instant := row.mapTimes StoredTime.toInstant

/-- All active brands by symbol. -/
def findAll : Action (List (Brand Instant)) := Session.withOrder fun order =>
  Session.run "find all stock brands" (.read fun s =>
    .ok ((sortBy (bySymbol order) (active s.brands)).map ofRow))

def findBySymbol (symbol : String) : Action (Option (Brand Instant)) :=
  Session.run "find stock brand by symbol" (.read fun s => do
    Binding.text symbol
    return ((active s.brands).find? fun b => decide (b.symbol = symbol)).map ofRow)

/-- The ids among `ids` that belong to soft-deleted brands. -/
def softDeletedIds (ids : List String) (rows : List BrandRow) : List String :=
  (rows.filter fun b => !b.isActive && ids.contains b.id).map Brand.id

/-- Writes the brands of one statement. -/
def upsertStatement (now : Instant) (batch : List NewBrand) : Statement Nat := fun s => do
  let createdAt ← Binding.time now
  let rows ← Binding.all (Binding.newBrand createdAt) batch
  let brands ← BrandRow.rule.upsert s.brands rows
  return (rows.length, { s with brands := brands })

/-- Writes what the provider reports, and answers how many brands were written. Of several reports
with one id the last counts. -/
def upsert (batch : List NewBrand) : Action Nat := do
  if batch.isEmpty then return 0
  let deleted ← Session.run "load soft-deleted stock brand ids" (.read fun s => do
    Binding.texts (batch.map NewBrand.id)
    return softDeletedIds (batch.map NewBrand.id) s.brands)
  let kept := (lastPerKey NewBrand.id batch).filter fun b => !deleted.contains b.id
  let now ← Action.now
  Session.runAll "upsert stock brands" ((chunks rowsPerStatement kept).map (upsertStatement now))

/-- The texts that a filter sends to the store. -/
def filterTexts (f : BrandFilter) : List String := f.cursor :: f.markets?.getD []

/-- Whether a filter lets a brand through, its limit apart. -/
def allowedBy (order : TextOrder) (f : BrandFilter) (b : BrandRow) : Bool :=
  decide (order.lt f.cursor b.symbol) &&
    match f.markets? with
    | none => true
    | some codes => codes.contains b.market.code

/-- The first items, if their number is limited. -/
def takeLimit {α : Type} (limit : Option Nat) (xs : List α) : List α :=
  match limit with
  | none => xs
  | some n => xs.take n

/-- The active brands that a filter lets through, by symbol. -/
def findWithFilter (f : BrandFilter) : Action (List (Brand Instant)) := Session.withOrder fun order =>
  Session.run "find stock brands with filter" (.read fun s => do
    Binding.texts (filterTexts f)
    let rows := sortBy (bySymbol order) ((active s.brands).filter (allowedBy order f))
    return (takeLimit f.limit? rows).map ofRow)

/-- The active brands of the main markets after a symbol. -/
def findFromSymbol (cursor : String) (limit : Int64) : Action (List (Brand Instant)) :=
  findWithFilter ((BrandFilter.mainOnly.after cursor).withLimit limit)

/-- The ids of active brands that were not reported since the threshold, in order. -/
def findStale (threshold : Instant) : Action (List String) := Session.withOrder fun order =>
  Session.run "find delisting stock brands" (.read fun s => do
    let bound ← Binding.time threshold
    let rows := (active s.brands).filter fun b => decide (b.updatedAt < bound)
    return (sortBy (byId order) rows).map Brand.id)

/-- The active brands with these ids, by symbol. -/
def activeAmong (order : TextOrder) (ids : List String) (rows : List BrandRow) : List BrandRow :=
  sortBy (bySymbol order) ((active rows).filter fun b => ids.contains b.id)

/-- Deletes the brands with these ids. -/
def deleteStatement (ids : List String) : Statement Unit := fun s => do
  Binding.texts ids
  return ((), { s with brands := s.brands.filter fun b => !ids.contains b.id })

/-- Deletes the active brands among `ids` and answers what they were. -/
def delete (ids : List String) : Action (List (Brand Instant)) := do
  if ids.isEmpty then return []
  let doomed ← Session.withOrder fun order =>
    Session.run "load delisting stock brands" (.read fun s => do
      Binding.texts ids
      return (activeAmong order ids s.brands).map ofRow)
  if doomed.isEmpty then return []
  Session.run "delete delisting stock brands" (deleteStatement (doomed.map Brand.id))
  return doomed

/-- The brand, soft-deleted at a time if it is active and was not reported since the bound. -/
def softDeleteIfStale (bound now : StoredTime) (b : BrandRow) : BrandRow :=
  if b.isActive ∧ b.updatedAt < bound then { b with deletedAt := some now } else b

/-- Soft-deletes, as of `now`, the active brands that were not reported since a time. -/
def softDeleteStatement (now refreshedAt : Instant) : Statement Nat := fun s => do
  let now ← Binding.time now
  let bound ← Binding.time refreshedAt
  let stale := (active s.brands).filter fun b => decide (b.updatedAt < bound)
  return (stale.length, { s with brands := s.brands.map (softDeleteIfStale bound now) })

/-- Soft-deletes the active brands that were not reported since a time, and answers how many. -/
def softDeleteStale (refreshedAt : Instant) : Action Nat := do
  let now ← Action.now
  Session.run "soft-delete stale stock brands" (softDeleteStatement now refreshedAt)

/-- All brands by id, soft-deleted ones too. -/
def dump : Action (List (Brand Instant)) := Session.withOrder fun order =>
  Session.run "dump brands" (.read fun s => .ok ((sortBy (byId order) s.brands).map ofRow))

end Brands

end PriceArchive
