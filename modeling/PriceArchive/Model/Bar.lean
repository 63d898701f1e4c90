import PriceArchive.Json.Record
import PriceArchive.Price

namespace PriceArchive

/-- The value columns of a day, over a type of prices and a type of volumes. -/
structure BarOf (π ν : Type) where
  opening : π
  high : π
  low : π
  closing : π
  adjustedClosing : π
  volume : ν
  deriving DecidableEq

/-- A bar to compute with. -/
abbrev Bar := BarOf Decimal UInt64

/-- A bar as it is stored. -/
abbrev StoredBar := BarOf Binary64 Int64

namespace Bar

/-- A bar whose adjusted close is its close. -/
def make (opening high low closing : Decimal) (volume : UInt64) : Bar :=
  ⟨opening, high, low, closing, closing, volume⟩

def withAdjustedClosing (bar : Bar) (price : Decimal) : Bar := { bar with adjustedClosing := price }

/-- The volume as it is stored, if it fits. -/
def storedVolume (volume : UInt64) : Except ConversionError Int64 :=
  if volume.toNat < Nat.pow 2 63 then .ok volume.toInt64 else .error (.volumeTooLarge volume)

/-- The bar as it is stored: prices rounded and narrowed. -/
def toStored (bar : Bar) : Except ConversionError StoredBar := do
  let volume ← storedVolume bar.volume
  return {
    opening := Price.toStored bar.opening
    high := Price.toStored bar.high
    low := Price.toStored bar.low
    closing := Price.toStored bar.closing
    adjustedClosing := Price.toStored bar.adjustedClosing
    volume := volume }

/-- The volume that a stored one stands for. -/
def readVolume (volume : Int64) : Except ConversionError UInt64 :=
  if volume < 0 then .error (.negativeVolume volume) else .ok volume.toUInt64

/-- The bar that a stored one stands for. The volume is read first, then the prices in order. -/
def ofStored (bar : StoredBar) : Except ConversionError Bar := do
  let volume ← readVolume bar.volume
  let opening ← Price.ofStored bar.opening
  let high ← Price.ofStored bar.high
  let low ← Price.ofStored bar.low
  let closing ← Price.ofStored bar.closing
  let adjustedClosing ← Price.ofStored bar.adjustedClosing
  return ⟨opening, high, low, closing, adjustedClosing, volume⟩

def columns : List String := ["open", "high", "low", "close", "adjusted_close", "volume"]

def toFields (bar : Bar) : List (String × Json) :=
  [("open", .ofDecimal bar.opening), ("high", .ofDecimal bar.high), ("low", .ofDecimal bar.low),
    ("close", .ofDecimal bar.closing), ("adjusted_close", .ofDecimal bar.adjustedClosing),
    ("volume", .ofVolume bar.volume)]

/-- The bar that the fields of a JSON form give. -/
def ofFields? (fields : Json.Fields) : Option Bar := do
  let opening ← fields.get "open" Json.decimal?
  let high ← fields.get "high" Json.decimal?
  let low ← fields.get "low" Json.decimal?
  let closing ← fields.get "close" Json.decimal?
  let adjustedClosing ← fields.get "adjusted_close" Json.decimal?
  let volume ← fields.get "volume" Json.volume?
  return ⟨opening, high, low, closing, adjustedClosing, volume⟩

def toJson (bar : Bar) : Json := .object bar.toFields

def ofJson? (j : Json) : Option Bar := do ofFields? (← j.record? columns)

end Bar

end PriceArchive
