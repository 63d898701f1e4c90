import PriceArchive.Store.Binding
import PriceArchive.Store.Brands
import PriceArchive.Store.Session

namespace PriceArchive

namespace Snapshots

/-- A stored snapshot as it is read. -/
def ofRow (row : SnapshotRow) : Except ConversionError Snapshot := do
  let tradePrice ← Price.ofStored row.tradePrice
  let currentPrice ← Price.ofStored row.currentPrice
  return ⟨row.id, row.brandId, tradePrice, currentPrice, row.action, row.method, row.memo,
    row.createdAt.toInstant, row.updatedAt.toInstant⟩

/-- Snapshots with an id for each and prices in their stored form, written now. -/
def withIds (now : Instant) : List NewSnapshot → Action (List (SnapshotOf Instant Binary64))
  | [] => pure []
  | s :: rest => do
    let id ← Action.freshId
    let others ← withIds now rest
    return ⟨id, s.brandId, Price.toStored s.tradePrice, Price.toStored s.currentPrice, s.action,
      s.method, s.memo, now, now⟩ :: others

/-- Writes the snapshots of one statement. -/
def upsertStatement (batch : List (SnapshotOf Instant Binary64)) : Statement Nat := fun s => do
  let rows ← Binding.all Binding.snapshot batch
  let snapshots ← SnapshotRow.rule.upsert s.snapshots rows
  return (rows.length, { s with snapshots := snapshots })

/-- Writes snapshots and answers how many were written. Of several snapshots for one brand the last
counts. -/
def upsert (batch : List NewSnapshot) : Action Nat := do
  if batch.isEmpty then return 0
  let now ← Action.now
  let rows ← withIds now (lastPerKey NewSnapshot.brandId batch)
  Session.runAll "upsert analyze current prices"
    ((chunks rowsPerStatement rows).map upsertStatement)

def find (brandId : String) : Action (Option Snapshot) := do
  let row ← Session.run "find analyze history by stock brand" (.read fun s => do
    Binding.text brandId
    return s.snapshots.find? fun r => decide (r.brandId = brandId))
  match row with
  | none => return none
  | some row => return some (← Action.ofConversion (ofRow row))

/-- Deletes the snapshots of some brands. -/
def deleteStatement (brandIds : List String) : Statement Nat := fun s => do
  Binding.texts brandIds
  return ((s.snapshots.filter fun r => brandIds.contains r.brandId).length,
    { s with snapshots := s.snapshots.filter fun r => !brandIds.contains r.brandId })

/-- Deletes the snapshots of some brands, and answers how many. -/
def delete (brandIds : List String) : Action Nat := do
  if brandIds.isEmpty then return 0
  Session.run "delete analyze histories by stock brand" (deleteStatement brandIds)

end Snapshots

end PriceArchive
