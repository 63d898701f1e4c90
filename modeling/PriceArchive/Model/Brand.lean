import PriceArchive.Json.Record

namespace PriceArchive

/-- A code of a classification and what it is called. -/
structure Label where
  code : String
  name : String
  deriving DecidableEq

namespace Label

/-- No classification. -/
def empty : Label := ⟨"", ""⟩

end Label

/-- A brand, with times of type `τ`. -/
structure Brand (τ : Type) where
  id : String
  symbol : String
  name : String
  market : Label
  sector33 : Label
  sector17 : Label
  createdAt : τ
  /-- When the provider last reported the brand. -/
  updatedAt : τ
  deletedAt : Option τ
  deriving DecidableEq

/-- A brand as the provider reports it. -/
structure NewBrand where
  id : String
  symbol : String
  name : String
  market : Label
  sector33 : Label
  sector17 : Label
  /-- When the provider reported it. -/
  updatedAt : Instant
  deriving DecidableEq

def mainMarkets : List String := ["111", "112", "113"]

namespace Brand

variable {τ : Type}

/-- Whether the brand is not soft-deleted. -/
def isActive (brand : Brand τ) : Bool := brand.deletedAt.isNone

/-- Whether the brand is listed on a main market. -/
def isMainMarket (brand : Brand τ) : Bool := mainMarkets.contains brand.market.code

def mapTimes {σ : Type} (f : τ → σ) (brand : Brand τ) : Brand σ where
  id := brand.id
  symbol := brand.symbol
  name := brand.name
  market := brand.market
  sector33 := brand.sector33
  sector17 := brand.sector17
  createdAt := f brand.createdAt
  updatedAt := f brand.updatedAt
  deletedAt := brand.deletedAt.map f

def columns : List String :=
  ["id", "ticker_symbol", "name", "market_code", "market_name", "sector33_code", "sector33_name",
    "sector17_code", "sector17_name", "created_at", "updated_at", "deleted_at"]

def toJson (brand : Brand Instant) : Json :=
  .object
    [("id", .string brand.id), ("ticker_symbol", .string brand.symbol),
      ("name", .string brand.name),
      ("market_code", .string brand.market.code), ("market_name", .string brand.market.name),
      ("sector33_code", .string brand.sector33.code),
      ("sector33_name", .string brand.sector33.name),
      ("sector17_code", .string brand.sector17.code),
      ("sector17_name", .string brand.sector17.name),
      ("created_at", .ofInstant brand.createdAt), ("updated_at", .ofInstant brand.updatedAt),
      ("deleted_at", .ofOption Json.ofInstant brand.deletedAt)]

def ofJson? (j : Json) : Option (Brand Instant) := do
  let fields ← j.record? columns
  let id ← fields.get "id" Json.string?
  let symbol ← fields.get "ticker_symbol" Json.string?
  let name ← fields.get "name" Json.string?
  let marketCode ← fields.get "market_code" Json.string?
  let marketName ← fields.get "market_name" Json.string?
  let sector33Code ← fields.get "sector33_code" Json.string?
  let sector33Name ← fields.get "sector33_name" Json.string?
  let sector17Code ← fields.get "sector17_code" Json.string?
  let sector17Name ← fields.get "sector17_name" Json.string?
  let createdAt ← fields.get "created_at" Json.instant?
  let updatedAt ← fields.get "updated_at" Json.instant?
  let deletedAt ← fields.getOption "deleted_at" Json.instant?
  return {
    id, symbol, name
    market := ⟨marketCode, marketName⟩
    sector33 := ⟨sector33Code, sector33Name⟩
    sector17 := ⟨sector17Code, sector17Name⟩
    createdAt, updatedAt, deletedAt }

end Brand

namespace NewBrand

def columns : List String :=
  ["id", "ticker_symbol", "name", "market_code", "market_name", "sector33_code", "sector33_name",
    "sector17_code", "sector17_name", "updated_at"]

def toJson (brand : NewBrand) : Json :=
  .object
    [("id", .string brand.id), ("ticker_symbol", .string brand.symbol),
      ("name", .string brand.name),
      ("market_code", .string brand.market.code), ("market_name", .string brand.market.name),
      ("sector33_code", .string brand.sector33.code),
      ("sector33_name", .string brand.sector33.name),
      ("sector17_code", .string brand.sector17.code),
      ("sector17_name", .string brand.sector17.name),
      ("updated_at", .ofInstant brand.updatedAt)]

def ofJson? (j : Json) : Option NewBrand := do
  let fields ← j.record? columns
  let id ← fields.get "id" Json.string?
  let symbol ← fields.get "ticker_symbol" Json.string?
  let name ← fields.get "name" Json.string?
  let marketCode ← fields.get "market_code" Json.string?
  let marketName ← fields.get "market_name" Json.string?
  let sector33Code ← fields.get "sector33_code" Json.string?
  let sector33Name ← fields.get "sector33_name" Json.string?
  let sector17Code ← fields.get "sector17_code" Json.string?
  let sector17Name ← fields.get "sector17_name" Json.string?
  let updatedAt ← fields.get "updated_at" Json.instant?
  return {
    id, symbol, name
    market := ⟨marketCode, marketName⟩
    sector33 := ⟨sector33Code, sector33Name⟩
    sector17 := ⟨sector17Code, sector17Name⟩
    updatedAt }

end NewBrand

end PriceArchive
