namespace PriceArchive

/-- How a store orders texts: of two different ones which comes first. -/
structure TextOrder where
  lt : String → String → Prop
  decidable : DecidableRel lt
  irrefl : ∀ x, ¬ lt x x
  trans : ∀ {x y z}, lt x y → lt y z → lt x z
  total : ∀ {x y}, x ≠ y → lt x y ∨ lt y x

namespace TextOrder

instance (order : TextOrder) : DecidableRel order.lt := order.decidable

/-- Whether a text comes before another or is it. -/
def le (order : TextOrder) (x y : String) : Bool := !decide (order.lt y x)

/-- The order by the code points of the characters. -/
def codePoints : TextOrder where
  lt x y := x < y
  decidable := inferInstance
  irrefl := String.lt_irrefl
  trans := String.lt_trans
  total {x y} hne := by
    rcases String.le_total x y with hle | hle
    · exact .inl (String.not_le.mp fun hge => hne (String.le_antisymm hle hge))
    · exact .inr (String.not_le.mp fun hge => hne (String.le_antisymm hge hle))

end TextOrder

end PriceArchive
