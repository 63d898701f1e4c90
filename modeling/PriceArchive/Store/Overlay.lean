import PriceArchive.Store.Basic

namespace PriceArchive

section Rows

variable {ρ κ : Type} [DecidableEq ρ] [DecidableEq κ]

/-- Whether the row with an id was written on the way from the rows `old` to the rows `new`. -/
def wroteRow (id : ρ → κ) (old new : List ρ) (k : κ) : Bool :=
  decide (old.find? (fun r => decide (id r = k)) ≠ new.find? fun r => decide (id r = k))

/-- The rows as a transaction sees them that found the rows `old` and made `mine` of them, when the rows
`kept` are kept in the meantime: where it wrote its own, elsewhere those that are kept. -/
def overlaidRows (id : ρ → κ) (old mine kept : List ρ) : List ρ :=
  (mine.filter fun r => wroteRow id old mine (id r)) ++
    kept.filter fun r => !wroteRow id old mine (id r)

/-- Whether two who turn the rows `old` into `mine` and into `kept` are in each other's way: both write the
row with one id, or they write rows of which a table can have only one. A row that is written as it was counts
as left alone: there the second would wait as well, so that there are outcomes here that a store does not have,
but none is missing. -/
def rowsCollide (id : ρ → κ) (rival : ρ → ρ → Bool) (old mine kept : List ρ) : Bool :=
  ((old ++ kept).any fun r => wroteRow id old mine (id r) && wroteRow id old kept (id r)) ||
    mine.any fun a => wroteRow id old mine (id a) &&
      kept.any fun b => wroteRow id old kept (id b) && rival a b

end Rows

/-- Whether a table can have only one of two brands: they are active and have one symbol. -/
def BrandRow.rival (a b : BrandRow) : Bool :=
  a.isActive && b.isActive && decide (a.symbol = b.symbol)

/-- Whether a series can have only one of two quotes: they are of one subject and day. -/
def QuoteRow.rival {σ : Type} [Subject σ] (a b : QuoteRow σ) : Bool :=
  decide (QuoteOf.key a = QuoteOf.key b)

/-- Whether a table can have only one of two snapshots: they are of one brand. -/
def SnapshotRow.rival (a b : SnapshotRow) : Bool := decide (a.brandId = b.brandId)

namespace Store

/-- The store as a transaction sees it that found the store `old` and made `mine` of it, when the store
`kept` is kept in the meantime by someone who writes no volume averages. -/
def overlaid (old mine kept : Store) : Store where
  brands := overlaidRows Brand.id old.brands mine.brands kept.brands
  daily := overlaidRows QuoteOf.id old.daily mine.daily kept.daily
  forAnalysis := overlaidRows QuoteOf.id old.forAnalysis mine.forAnalysis kept.forAnalysis
  snapshots := overlaidRows SnapshotOf.id old.snapshots mine.snapshots kept.snapshots
  nikkei := overlaidRows QuoteOf.id old.nikkei mine.nikkei kept.nikkei
  topix := overlaidRows QuoteOf.id old.topix mine.topix kept.topix
  volumeAverages := mine.volumeAverages

/-- Whether two who turn the store `old` into `mine` and into `kept` are in each other's way. -/
def collide (old mine kept : Store) : Bool :=
  rowsCollide Brand.id BrandRow.rival old.brands mine.brands kept.brands ||
  rowsCollide QuoteOf.id QuoteRow.rival old.daily mine.daily kept.daily ||
  rowsCollide QuoteOf.id QuoteRow.rival old.forAnalysis mine.forAnalysis kept.forAnalysis ||
  rowsCollide SnapshotOf.id SnapshotRow.rival old.snapshots mine.snapshots kept.snapshots ||
  rowsCollide QuoteOf.id QuoteRow.rival old.nikkei mine.nikkei kept.nikkei ||
  rowsCollide QuoteOf.id QuoteRow.rival old.topix mine.topix kept.topix

end Store

end PriceArchive
