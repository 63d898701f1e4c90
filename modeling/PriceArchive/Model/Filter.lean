import PriceArchive.Calendar.StoredTime
import PriceArchive.Json.Record
import PriceArchive.Model.Brand
import PriceArchive.Text.TextSet

namespace PriceArchive

structure BrandFilter where
  /-- Whether only the main markets count; the market codes are then ignored. -/
  onlyMainMarkets : Bool
  /-- The markets that count; none of them for all. -/
  marketCodes : TextSet
  /-- Only symbols after this one are listed. -/
  cursor : String
  /-- The largest number of brands, if it is positive. -/
  limit : Int64
  deriving DecidableEq

namespace BrandFilter

def all : BrandFilter := ⟨false, .empty, "", 0⟩

def mainOnly : BrandFilter := { all with onlyMainMarkets := true }

def withMarketCodes (f : BrandFilter) (codes : List String) : BrandFilter :=
  { f with marketCodes := .ofList codes }

/-- The filter for symbols after another cursor. -/
def after (f : BrandFilter) (cursor : String) : BrandFilter := { f with cursor := cursor }

def withLimit (f : BrandFilter) (limit : Int64) : BrandFilter := { f with limit := limit }

/-- The markets to which the filter restricts, if it does. -/
def markets? (f : BrandFilter) : Option (List String) :=
  if f.onlyMainMarkets then some mainMarkets
  else if f.marketCodes.items.isEmpty then none
  else some f.marketCodes.items

/-- The largest number of brands, if there is one. -/
def limit? (f : BrandFilter) : Option Nat :=
  if 0 < f.limit then some f.limit.toInt.toNat else none

def columns : List String := ["only_main_markets", "market_codes", "symbol_cursor", "limit"]

def toJson (f : BrandFilter) : Json :=
  .object
    [("only_main_markets", .bool f.onlyMainMarkets), ("market_codes", .ofStrings f.marketCodes.items),
      ("symbol_cursor", .string f.cursor), ("limit", .ofInt f.limit.toInt)]

/-- Reads the JSON form; the codes may come in any order and more than once. -/
def ofJson? (j : Json) : Option BrandFilter := do
  let fields ← j.record? columns
  let onlyMainMarkets ← fields.get "only_main_markets" Json.bool?
  let marketCodes ← fields.get "market_codes" Json.strings?
  let cursor ← fields.get "symbol_cursor" Json.string?
  let limit ← fields.get "limit" Json.signedWord?
  return ⟨onlyMainMarkets, .ofList marketCodes, cursor, limit⟩

end BrandFilter

/-- A range of calendar days; a missing end does not restrict. -/
structure DateRange where
  /-- A time on the first day. -/
  first : Option Instant
  /-- A time on the last day. -/
  last : Option Instant
  deriving DecidableEq

namespace DateRange

def all : DateRange := ⟨none, none⟩

/-- The first instant of the range. -/
def lowerBound (r : DateRange) : Option Instant := r.first.map Instant.startOfDay

/-- The first instant after the range. -/
def upperBound (r : DateRange) : Except TimeOverflow (Option Instant) :=
  match r.last with
  | none => .ok none
  | some t => t.endOfDay.map some

def columns : List String := ["date_from", "date_to"]

def toFields (r : DateRange) : List (String × Json) :=
  [("date_from", .ofOption Json.ofInstant r.first), ("date_to", .ofOption Json.ofInstant r.last)]

/-- The range that the fields of a JSON form give. -/
def ofFields? (fields : Json.Fields) : Option DateRange := do
  let first ← fields.getOption "date_from" Json.instant?
  let last ← fields.getOption "date_to" Json.instant?
  return ⟨first, last⟩

def toJson (r : DateRange) : Json := .object r.toFields

def ofJson? (j : Json) : Option DateRange := do ofFields? (← j.record? columns)

end DateRange

structure QuoteFilter where
  symbol : String
  range : DateRange
  deriving DecidableEq

namespace QuoteFilter

/-- The JSON form; the ends of the range stand among the other fields. -/
def toJson (f : QuoteFilter) : Json :=
  .object (("ticker_symbol", .string f.symbol) :: f.range.toFields)

def ofJson? (j : Json) : Option QuoteFilter := do
  let fields ← j.fields?
  let symbol ← fields.get "ticker_symbol" Json.string?
  let range ← DateRange.ofFields? fields
  return ⟨symbol, range⟩

end QuoteFilter

end PriceArchive
