import PriceArchive.Store.Binding
import PriceArchive.Store.Brands
import PriceArchive.Store.Session

namespace PriceArchive

/-- An active brand with its volume average. -/
structure HighVolumeBrand where
  symbol : String
  name : String
  average : Binary64
  deriving DecidableEq

namespace HighVolume

/-- The averages of symbols after the cursor, each with every active brand of its symbol. -/
def joined (order : TextOrder) (cursor : String) (s : Store) : List HighVolumeBrand :=
  (s.volumeAverages.filter fun v => decide (order.lt cursor v.symbol)).flatMap fun v =>
    ((Brands.active s.brands).filter fun b => decide (b.symbol = v.symbol)).map fun b =>
      ⟨v.symbol, b.name, v.average⟩

/-- The first brands with a volume average after a symbol, by symbol; their number has to be limited
by a positive number. -/
def page (cursor : String) (limit : Int64) : Action (List HighVolumeBrand) := do
  if limit ≤ 0 then
    Action.fail (.invalidInput ("high volume page limit must be positive, got " ++ toString limit.toInt))
  Session.withOrder fun order =>
    Session.run "find high volume stock brands" (.read fun s => do
      Binding.text cursor
      return (sortBy (fun a b => order.le a.symbol b.symbol) (joined order cursor s)).take
        limit.toInt.toNat)

end HighVolume

end PriceArchive
