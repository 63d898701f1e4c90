import PriceArchive.Number.Power
import PriceArchive.Number.Rounding

namespace PriceArchive

/-- The first mantissa that no longer fits 96 bits. -/
def Decimal.mantissaLimit : Nat := Nat.pow 2 96

/-- The largest number of digits after the point. -/
def Decimal.maxScale : Nat := 28

/-- A sign, a mantissa of 96 bits and a scale of at most 28: `±mantissa / tenPow scale`. The scale is part
of the value, so `1.50` and `1.5` are two decimals that denote one number. So is the sign of a zero. -/
structure Decimal where
  negative : Bool
  /-- The digits, read as one natural number. -/
  mantissa : Nat
  /-- How many of the digits stand after the point. -/
  scale : Nat
  mantissa_lt : mantissa < Decimal.mantissaLimit
  scale_le : scale ≤ Decimal.maxScale
  deriving DecidableEq

namespace Decimal

/-- The decimal with these parts; a zero loses its sign. -/
def ofParts (negative : Bool) (mantissa scale : Nat) (mantissa_lt : mantissa < mantissaLimit)
    (scale_le : scale ≤ maxScale) : Decimal where
  negative := negative && mantissa != 0
  mantissa := mantissa
  scale := scale
  mantissa_lt := mantissa_lt
  scale_le := scale_le

/-- The decimal with these parts, if the mantissa and the scale fit. -/
def ofParts? (negative : Bool) (mantissa scale : Nat) : Option Decimal :=
  if h : mantissa < mantissaLimit ∧ scale ≤ maxScale then
    some (ofParts negative mantissa scale h.1 h.2)
  else
    none

def zero : Decimal := ofParts false 0 0 (by decide) (by decide)

instance : Inhabited Decimal := ⟨zero⟩

/-- The number that a decimal denotes. -/
def value (d : Decimal) : Rat :=
  let magnitude := mkRat d.mantissa (tenPow d.scale)
  if d.negative then -magnitude else magnitude

/-- The decimal with its sign turned, that of a zero too. -/
def neg (d : Decimal) : Decimal := { d with negative := !d.negative }

instance : Neg Decimal := ⟨neg⟩

/-- The decimal to `places` digits after the point, a half going away from zero. A decimal with no
more digits than that stays as it is. -/
def roundTo (places : Nat) (d : Decimal) : Decimal :=
  if h : d.scale ≤ places then
    d
  else
    ofParts d.negative (roundHalfUp d.mantissa (tenPow (d.scale - places))) places
      (Nat.lt_of_le_of_lt (roundHalfUp_le (tenPow_pos _)) d.mantissa_lt)
      (Nat.le_trans (Nat.le_of_lt (Nat.lt_of_not_le h)) d.scale_le)

end Decimal

end PriceArchive
