import PriceArchive.Json.Basic
import PriceArchive.Store.Error

namespace PriceArchive

inductive MarketIndex where
  | nikkei
  | topix
  deriving DecidableEq

namespace MarketIndex

def name : MarketIndex → String
  | .nikkei => "nikkei"
  | .topix => "topix"

/-- The table that holds the series of the index. -/
def tableName : MarketIndex → String
  | .nikkei => "nikkei_daily_prices"
  | .topix => "topix_daily_prices"

def ofName? (name : String) : Option MarketIndex :=
  if name = "nikkei" then some .nikkei else if name = "topix" then some .topix else none

/-- The index with this name, or the error that there is none. -/
def parse (name : String) : Except Error MarketIndex :=
  match ofName? name with
  | some index => .ok index
  | none => .error (.invalidInput ("unknown market index: " ++ name))

def toJson (index : MarketIndex) : Json := .string index.name

/-- Reads the JSON form: the name, or an object with the name as its only field, which is null. -/
def ofJson? : Json → Option MarketIndex
  | .string s => ofName? s
  | .object [(key, .null)] => ofName? key
  | _ => none

end MarketIndex

end PriceArchive
