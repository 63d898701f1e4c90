import PriceArchive.Binary64.Basic
import PriceArchive.Decimal.Text

namespace PriceArchive

namespace Binary64

/-- A number written with digits and a power of ten: `digits * 10 ^ exponent`. -/
structure Digits where
  digits : Nat
  exponent : Int
  deriving DecidableEq

/-- The number that the digits denote. -/
def Digits.value (d : Digits) : Rat := (d.digits : Rat) * tenPower d.exponent

/-- The numbers that read back as the positive double `significand * 2 ^ exponent`. -/
structure Neighbourhood where
  low : Rat
  high : Rat
  /-- Whether the ends belong to it. -/
  closed : Bool

/-- Half way to the next double on either side; a tie goes to the even significand, so the ends
belong to an even one. Below a power of two the doubles lie twice as close. -/
def neighbourhood (significand : Nat) (exponent : Int) : Neighbourhood :=
  let x := (significand : Rat) * twoPower exponent
  let half := twoPower (exponent - 1)
  let below :=
    if significand = fractionLimit && decide (minExponent < exponent) then twoPower (exponent - 2)
    else half
  ⟨x - below, x + half, decide (significand % 2 = 0)⟩

/-- Whether the number reads back as the double. -/
def Neighbourhood.contains (n : Neighbourhood) (x : Rat) : Bool :=
  if n.closed then decide (n.low ≤ x) && decide (x ≤ n.high)
  else decide (n.low < x) && decide (x < n.high)

/-- How many digits stand before the point of a positive number; for a number below one, less one
for every zero after the point. -/
def pointPosition (x : Rat) : Int :=
  if 1 ≤ x then digitCount (x.num.toNat / x.den)
  else
    let zeros : Int := digitCount (x.den / x.num.toNat)
    if tenPower (-zeros + 1) ≤ x then -zeros + 2 else -zeros + 1

/-- The better one of two neighbours on a grid of decimals, if one reads back as the double. -/
def choose (x : Rat) (n : Neighbourhood) (lower upper : Digits) : Option Digits :=
  match n.contains lower.value, n.contains upper.value with
  | true, true => if x - lower.value < upper.value - x then some lower else some upper
  | true, false => some lower
  | false, true => some upper
  | false, false => none

/-- The digits of a number with `count` digits that reads back as `x`, or with the first larger
count, of `fuel` many, for which there is one. -/
def search (x : Rat) (n : Neighbourhood) (position : Int) : (fuel count : Nat) → Digits
  | 0, count => ⟨0, position - count⟩
  | fuel + 1, count =>
    let exponent := position - count
    let scaled := x * tenPower (-exponent)
    let whole := scaled.num.toNat / scaled.den
    match choose x n ⟨whole, exponent⟩ ⟨whole + 1, exponent⟩ with
    | some d => d
    | none => search x n position fuel (count + 1)

/-- One zero less at the end of the digits. -/
def Digits.dropZero (d : Digits) : Digits :=
  if d.digits % 10 = 0 && d.digits != 0 then ⟨d.digits / 10, d.exponent + 1⟩ else d

/-- The shortest digits that read back as the double `significand * 2 ^ exponent`. Seventeen digits
are enough for any double. -/
def shortest (significand : Nat) (exponent : Int) : Digits :=
  if significand = 0 then ⟨0, 0⟩
  else
    let x := (significand : Rat) * twoPower exponent
    (search x (neighbourhood significand exponent) (pointPosition x) 17 1).dropZero

/-- The characters of a number without an exponent. -/
def Digits.toChars (d : Digits) : List Char :=
  match d.exponent with
  | .ofNat k => Decimal.positional (d.digits * tenPow k) 0
  | .negSucc k => Decimal.positional d.digits (k + 1)

/-- The text of a double: its shortest digits without an exponent, or the name of what is not a
number. -/
def toText (x : Binary64) : String :=
  match x.kind with
  | .notANumber => "NaN"
  | .infinite negative => if negative then "-inf" else "inf"
  | .finite negative m e =>
    let chars := (shortest m e).toChars
    String.ofList (if negative then '-' :: chars else chars)

end Binary64

end PriceArchive
