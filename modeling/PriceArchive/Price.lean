import PriceArchive.Binary64.Shortest

namespace PriceArchive

/-- Why a stored column is no price or volume, or a volume cannot be stored. -/
inductive ConversionError where
  /-- The double is infinite or not a number. -/
  | notFinite (x : Binary64)
  /-- The digits of the double are no decimal. -/
  | unreadable (x : Binary64) (reason : Decimal.ReadError)
  /-- The volume passes the largest signed number of 64 bits. -/
  | volumeTooLarge (volume : UInt64)
  /-- The stored volume is below zero. -/
  | negativeVolume (volume : Int64)
  deriving DecidableEq

/-- The wording of a conversion error. -/
def ConversionError.message : ConversionError → String
  | .notFinite x => "non-finite stored value " ++ x.toText
  | .unreadable x reason => x.toText ++ ": " ++ reason.message
  | .volumeTooLarge volume => "volume " ++ toString volume.toNat ++ " exceeds i64"
  | .negativeVolume volume => "negative stored volume " ++ toString volume.toInt

namespace Price

/-- How many fraction digits a stored price has. -/
def places : Nat := 4

/-- A price to four fraction digits, a half going away from zero. -/
def round (d : Decimal) : Decimal := d.roundTo places

/-- The size of the double to which a decimal narrows. A whole number is rounded once. Otherwise
the whole part and the fraction are narrowed on their own and added, and the sum is brought back to
the scale of the decimal; every step rounds. -/
def narrowMagnitude (mantissa scale : Nat) : Rat :=
  if scale = 0 then Binary64.nearest mantissa
  else
    let power := Binary64.nearest (tenPow scale : Nat)
    let whole := Binary64.nearest ((mantissa / tenPow scale : Nat) : Rat)
    let fraction :=
      Binary64.nearest (Binary64.nearest ((mantissa % tenPow scale : Nat) : Rat) / power)
    if fraction = 0 then whole
    else
      let scaled := Binary64.nearest (Binary64.nearest (whole + fraction) * power)
      Binary64.nearest ((roundHalfUp scaled.num.toNat scaled.den : Rat) / power)

/-- Whether a decimal narrows to a double with a minus sign. A zero without fraction digits is narrowed
as an integer, which has no sign of zero. -/
def narrowSign (d : Decimal) : Bool := d.negative && (d.mantissa != 0 || d.scale != 0)

/-- A decimal as a double, for calculations that allow a small error. -/
def narrow (d : Decimal) : Binary64 :=
  Binary64.ofMagnitude (narrowSign d) (narrowMagnitude d.mantissa d.scale)

/-- A price as it is stored. -/
def toStored (d : Decimal) : Binary64 := narrow (round d)

/-- The price that a stored double stands for: its shortest digits, read as a decimal. -/
def ofStored (x : Binary64) : Except ConversionError Decimal :=
  if x.IsFinite then
    match Decimal.read x.toText with
    | .ok d => .ok d
    | .error reason => .error (.unreadable x reason)
  else
    .error (.notFinite x)

end Price

end PriceArchive
