import PriceArchive.Json.Record
import PriceArchive.Price

namespace PriceArchive

/-- A snapshot, with times of type `τ` and prices of type `π`. -/
structure SnapshotOf (τ π : Type) where
  id : String
  brandId : String
  tradePrice : π
  currentPrice : π
  action : String
  method : String
  memo : String
  createdAt : τ
  updatedAt : τ
  deriving DecidableEq

/-- A snapshot to compute with. -/
abbrev Snapshot := SnapshotOf Instant Decimal

/-- A snapshot as it comes in. -/
structure NewSnapshot where
  brandId : String
  tradePrice : Decimal
  currentPrice : Decimal
  action : String
  method : String
  memo : String
  deriving DecidableEq

namespace Snapshot

def columns : List String :=
  ["id", "stock_brand_id", "trade_price", "current_price", "action", "method", "memo",
    "created_at", "updated_at"]

def toJson (s : Snapshot) : Json :=
  .object
    [("id", .string s.id), ("stock_brand_id", .string s.brandId),
      ("trade_price", .ofDecimal s.tradePrice), ("current_price", .ofDecimal s.currentPrice),
      ("action", .string s.action), ("method", .string s.method), ("memo", .string s.memo),
      ("created_at", .ofInstant s.createdAt), ("updated_at", .ofInstant s.updatedAt)]

def ofJson? (j : Json) : Option Snapshot := do
  let fields ← j.record? columns
  let id ← fields.get "id" Json.string?
  let brandId ← fields.get "stock_brand_id" Json.string?
  let tradePrice ← fields.get "trade_price" Json.decimal?
  let currentPrice ← fields.get "current_price" Json.decimal?
  let action ← fields.get "action" Json.string?
  let method ← fields.get "method" Json.string?
  let memo ← fields.get "memo" Json.string?
  let createdAt ← fields.get "created_at" Json.instant?
  let updatedAt ← fields.get "updated_at" Json.instant?
  return ⟨id, brandId, tradePrice, currentPrice, action, method, memo, createdAt, updatedAt⟩

end Snapshot

namespace NewSnapshot

/-- A snapshot with a current price alone; the price of the last trade starts as the same. -/
def ofPrice (brandId : String) (price : Decimal) : NewSnapshot := ⟨brandId, price, price, "", "", ""⟩

def withTrade (s : NewSnapshot) (price : Decimal) (action method : String) : NewSnapshot :=
  { s with tradePrice := price, action := action, method := method }

/-- The snapshot with a memo. -/
def withMemo (s : NewSnapshot) (memo : String) : NewSnapshot := { s with memo := memo }

def columns : List String :=
  ["stock_brand_id", "trade_price", "current_price", "action", "method", "memo"]

def toJson (s : NewSnapshot) : Json :=
  .object
    [("stock_brand_id", .string s.brandId), ("trade_price", .ofDecimal s.tradePrice),
      ("current_price", .ofDecimal s.currentPrice), ("action", .string s.action),
      ("method", .string s.method), ("memo", .string s.memo)]

def ofJson? (j : Json) : Option NewSnapshot := do
  let fields ← j.record? columns
  let brandId ← fields.get "stock_brand_id" Json.string?
  let tradePrice ← fields.get "trade_price" Json.decimal?
  let currentPrice ← fields.get "current_price" Json.decimal?
  let action ← fields.get "action" Json.string?
  let method ← fields.get "method" Json.string?
  let memo ← fields.get "memo" Json.string?
  return ⟨brandId, tradePrice, currentPrice, action, method, memo⟩

end NewSnapshot

end PriceArchive
