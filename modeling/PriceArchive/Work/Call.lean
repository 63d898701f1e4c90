import PriceArchive.Store.HighVolume
import PriceArchive.Store.Maintenance
import PriceArchive.Store.Quotes
import PriceArchive.Store.Snapshots

namespace PriceArchive

/-- An operation with its arguments. -/
inductive Call where
  | findBrands
  | findBrand (symbol : String)
  | upsertBrands (batch : List NewBrand)
  | findBrandsFrom (cursor : String) (limit : Int64)
  | filterBrands (filter : BrandFilter)
  | findStaleBrands (threshold : Instant)
  | deleteBrands (ids : List String)
  | softDeleteBrands (refreshedAt : Instant)
  | upsertDaily (batch : List (NewQuote Instrument))
  | latestDaily (symbol : String)
  | listDaily (filter : QuoteFilter)
  | deleteDailyOfBrands (ids : List String)
  | deleteDailyOfSymbols (symbols : List String)
  | upsertForAnalysis (batch : List (NewQuote Ticker))
  | latestForAnalysis (symbol : String)
  | listForAnalysis (filter : QuoteFilter)
  | deleteForAnalysisOfSymbols (symbols : List String)
  | upsertSnapshots (batch : List NewSnapshot)
  | findSnapshot (brandId : String)
  | deleteSnapshots (brandIds : List String)
  | upsertIndex (index : MarketIndex) (batch : List (NewQuote Unit))
  | latestOfIndex (index : MarketIndex)
  | listIndex (index : MarketIndex) (range : DateRange)
  | pageHighVolume (cursor : String) (limit : Int64)

namespace Call

def Reply : Call → Type
  | findBrands | findBrandsFrom .. | filterBrands _ | deleteBrands _ => List (Brand Instant)
  | findBrand _ => Option (Brand Instant)
  | findStaleBrands _ => List String
  | upsertBrands _ | softDeleteBrands _ | upsertDaily _ | deleteDailyOfBrands _
  | deleteDailyOfSymbols _ | upsertForAnalysis _ | deleteForAnalysisOfSymbols _ | upsertSnapshots _
  | deleteSnapshots _ | upsertIndex .. => Nat
  | latestDaily _ => Quote Instrument
  | listDaily _ => List (Quote Instrument)
  | latestForAnalysis _ => Quote Ticker
  | listForAnalysis _ => List (Quote Ticker)
  | findSnapshot _ => Option Snapshot
  | latestOfIndex _ => Quote Unit
  | listIndex .. => List (Quote Unit)
  | pageHighVolume .. => List HighVolumeBrand

/-- Does the operation. -/
def perform : (c : Call) → Action c.Reply
  | findBrands => Brands.findAll
  | findBrand symbol => Brands.findBySymbol symbol
  | upsertBrands batch => Brands.upsert batch
  | findBrandsFrom cursor limit => Brands.findFromSymbol cursor limit
  | filterBrands filter => Brands.findWithFilter filter
  | findStaleBrands threshold => Brands.findStale threshold
  | deleteBrands ids => Brands.delete ids
  | softDeleteBrands refreshedAt => Brands.softDeleteStale refreshedAt
  | upsertDaily batch => Quotes.upsert Series.daily batch
  | latestDaily symbol => Quotes.latestDaily symbol
  | listDaily filter => Quotes.listBySymbol Series.daily filter
  | deleteDailyOfBrands ids => Quotes.deleteByBrands ids
  | deleteDailyOfSymbols symbols =>
    Quotes.deleteBySymbols Series.daily "delete daily prices by symbol" symbols
  | upsertForAnalysis batch => Quotes.upsert Series.forAnalysis batch
  | latestForAnalysis symbol => Quotes.latestForAnalysis symbol
  | listForAnalysis filter => Quotes.listBySymbol Series.forAnalysis filter
  | deleteForAnalysisOfSymbols symbols =>
    Quotes.deleteBySymbols Series.forAnalysis "delete analyze daily prices by symbol" symbols
  | upsertSnapshots batch => Snapshots.upsert batch
  | findSnapshot brandId => Snapshots.find brandId
  | deleteSnapshots brandIds => Snapshots.delete brandIds
  | upsertIndex index batch => Quotes.upsert (Series.ofIndex index) batch
  | latestOfIndex index => Quotes.latestOfIndex index
  | listIndex index range => Quotes.list (Series.ofIndex index) [] range
  | pageHighVolume cursor limit => HighVolume.page cursor limit

end Call

end PriceArchive
