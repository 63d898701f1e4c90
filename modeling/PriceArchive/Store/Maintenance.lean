import PriceArchive.Store.Binding
import PriceArchive.Store.Session

namespace PriceArchive

/-- A row to write as it is. -/
inductive SeedRow where
  | brand (b : Brand Instant)
  | volumeAverage (symbol : String) (average : Binary64) (createdAt updatedAt : Instant)
  | snapshot (s : SnapshotOf Instant Binary64)
  | daily (q : QuoteOf Instrument Instant StoredBar)
  | forAnalysis (q : QuoteOf Ticker Instant StoredBar)
  | index (index : MarketIndex) (q : QuoteOf Unit Instant StoredBar)

/-- What setting the tables up anew did. -/
structure SetupReport where
  /-- How many migrations were taken back. -/
  reverted : Nat
  /-- How many the first run applied. -/
  first : Nat
  /-- How many the second run applied. -/
  second : Nat
  deriving DecidableEq

namespace Maintenance

/-- Adds a quote to a series. -/
def seedQuote {σ : Type} [Subject σ] (series : Series σ) (q : QuoteOf σ Instant StoredBar) :
    Action Nat :=
  Session.run "seed a price" fun s => do
    let row ← Binding.quote q
    let rows ← (QuoteRow.rule series.names).insert (series.get s) row
    return (1, series.set s rows)

/-- Adds one row and answers their number. -/
def seed : SeedRow → Action Nat
  | .brand b => Session.run "seed a brand" fun s => do
    let row ← Binding.brand b
    let rows ← BrandRow.rule.insert s.brands row
    return (1, { s with brands := rows })
  | .volumeAverage symbol average createdAt updatedAt =>
    Session.run "seed a volume average" fun s => do
      Binding.text symbol
      let createdAt ← Binding.time createdAt
      let updatedAt ← Binding.time updatedAt
      let rows ← VolumeAverage.rule.insert s.volumeAverages ⟨symbol, average, createdAt, updatedAt⟩
      return (1, { s with volumeAverages := rows })
  | .snapshot h => Session.run "seed a history" fun s => do
    let row ← Binding.snapshot h
    let rows ← SnapshotRow.rule.insert s.snapshots row
    return (1, { s with snapshots := rows })
  | .daily q => seedQuote Series.daily q
  | .forAnalysis q => seedQuote Series.forAnalysis q
  | .index index q => seedQuote (Series.ofIndex index) q

def countRows : Action (List (String × Nat)) :=
  Session.run "count rows" (.read fun s => .ok s.counts)

/-- The migrations of the tables, in order. -/
def migrations : List String := ["create the tables"]

/-- Applies the migrations that a store lacks which has the first `applied` of them, and answers how
many there were. -/
def applyPending (applied : Nat) : Nat := (migrations.drop applied).length

/-- Applies the migrations that a store lacks which has them all. -/
def runMigrations : Action Nat := do
  Session.checkOut
  return applyPending migrations.length

/-- Drops the tables and sets them up twice; no row is left. -/
def rebuild : Action SetupReport := do
  Session.checkOut
  modify fun s => { s with store := .empty }
  let first := applyPending 0
  return ⟨migrations.length, first, applyPending first⟩

/-- Asks a server for a connection. -/
def connect (server : Server) : Action Unit :=
  match server.refusal with
  | none => pure ()
  | some reason => Action.fail (.poolUnavailable reason)

end Maintenance

end PriceArchive
