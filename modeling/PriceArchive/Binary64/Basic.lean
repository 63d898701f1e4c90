import PriceArchive.Number.Power
import PriceArchive.Number.Rounding

namespace PriceArchive

/-- A double, by its bits. -/
structure Binary64 where
  bits : UInt64
  deriving DecidableEq

namespace Binary64

/-- The kinds of doubles; a finite one is `significand * 2 ^ exponent` with a sign. -/
inductive Kind where
  | notANumber
  | infinite (negative : Bool)
  | finite (negative : Bool) (significand : Nat) (exponent : Int)
  deriving DecidableEq

/-- The exponent of the smallest doubles. -/
def minExponent : Int := -1074

/-- The first exponent at which a number of 53 significant bits is too large for a double. -/
def exponentLimit : Int := 972

/-- How many values the fraction field has: a number of at least this many units in the last place
is written with its leading bit left out. -/
def fractionLimit : Nat := Nat.pow 2 52

/-- The sign bit. -/
def signBit (x : Binary64) : Bool := decide (Nat.pow 2 63 ≤ x.bits.toNat)

/-- The eleven bits of the exponent. -/
def exponentField (x : Binary64) : Nat := x.bits.toNat / fractionLimit % 2048

/-- The lowest 52 bits. -/
def fractionField (x : Binary64) : Nat := x.bits.toNat % fractionLimit

/-- What the bits say. -/
def kind (x : Binary64) : Kind :=
  if x.exponentField = 2047 then
    if x.fractionField = 0 then .infinite x.signBit else .notANumber
  else if x.exponentField = 0 then
    .finite x.signBit x.fractionField minExponent
  else
    .finite x.signBit (fractionLimit + x.fractionField) (x.exponentField - 1075)

/-- The number that a finite double denotes. -/
def value? (x : Binary64) : Option Rat :=
  match x.kind with
  | .finite negative m e =>
    let magnitude := (m : Rat) * twoPower e
    some (if negative then -magnitude else magnitude)
  | _ => none

/-- Whether the double denotes a number. -/
def IsFinite (x : Binary64) : Prop := x.exponentField ≠ 2047

instance (x : Binary64) : Decidable x.IsFinite := inferInstanceAs (Decidable (_ ≠ _))

/-- The double made of a sign, an exponent field and a fraction field. -/
def ofFields (negative : Bool) (exponent fraction : Nat) : Binary64 :=
  ⟨UInt64.ofNat ((if negative then Nat.pow 2 63 else 0) + exponent * fractionLimit + fraction)⟩

/-- The exponent of the highest power of two that a positive number reaches. -/
def binaryExponent (x : Rat) : Int :=
  let guess : Int := x.num.toNat.log2 - x.den.log2
  if twoPower guess ≤ x then guess else guess - 1

/-- The exponent of the unit in the last place of the doubles around a positive number. -/
def unitExponent (x : Rat) : Int := max (binaryExponent x - 52) minExponent

/-- How many units in the last place a positive number is, rounded. -/
def unitCount (x : Rat) : Nat :=
  let scaled := x * twoPower (-unitExponent x)
  roundHalfEven scaled.num.toNat scaled.den

/-- The nearest number that 53 significant bits can hold, a tie going to the even one. -/
def nearest (x : Rat) : Rat :=
  if x = 0 then 0 else (unitCount x : Rat) * twoPower (unitExponent x)

/-- The double nearest to a number of this size; one past the largest double is infinite. -/
def ofMagnitude (negative : Bool) (x : Rat) : Binary64 :=
  let y := nearest x
  if y = 0 then ofFields negative 0 0
  else
    let e := unitExponent y
    let m := unitCount y
    if exponentLimit ≤ e then ofFields negative 2047 0
    else if m < fractionLimit then ofFields negative 0 m
    else ofFields negative (e + 1075).toNat (m - fractionLimit)

/-- The number one. -/
def one : Binary64 := ofMagnitude false 1

instance : Inhabited Binary64 := ⟨⟨0⟩⟩

end Binary64

end PriceArchive
