import PriceArchive.Work.Basic

namespace PriceArchive

/-- How many rows an ingest wrote. -/
structure IngestReport where
  daily : Nat
  forAnalysis : Nat
  snapshots : Nat
  deriving DecidableEq

namespace Ingest

/-- The latest close of a brand so far. -/
structure LatestClose where
  brandId : String
  date : Instant
  price : Decimal
  deriving DecidableEq

/-- The latest closes with one more quote; they are ordered by brand. Of two quotes for one date the
later one in the batch counts. -/
def note (q : NewQuote Instrument) : List LatestClose → List LatestClose
  | [] => [⟨q.subject.brandId, q.date, q.bar.closing⟩]
  | c :: rest =>
    if c.brandId = q.subject.brandId then
      (if c.date ≤ q.date then ⟨c.brandId, q.date, q.bar.closing⟩ else c) :: rest
    else if q.subject.brandId < c.brandId then
      ⟨q.subject.brandId, q.date, q.bar.closing⟩ :: c :: rest
    else
      c :: note q rest

/-- A snapshot for every brand of a batch, with the close of its latest day, ordered by brand. -/
def latestCloses (batch : List (NewQuote Instrument)) : List NewSnapshot :=
  (batch.foldl (fun closes q => note q closes) []).map fun c => .ofPrice c.brandId c.price

/-- The writes of an ingest. -/
def work (batch : List (NewQuote Instrument)) : Work Error IngestReport := do
  let daily ← Work.call (.upsertDaily batch)
  let forAnalysis ← Work.call (.upsertForAnalysis (batch.map NewQuote.forAnalysis))
  let snapshots ← Work.call (.upsertSnapshots (latestCloses batch))
  return ⟨daily, forAnalysis, snapshots⟩

/-- Ingests quotes in a session without a transaction; nothing is stored if a write fails. -/
def run (batch : List (NewQuote Instrument)) : Action IngestReport :=
  if batch.isEmpty then pure ⟨0, 0, 0⟩ else (work batch).runAsUnit

end Ingest

end PriceArchive
