import PriceArchive.Text.Digits

namespace PriceArchive

namespace Numeral

/-- The natural number that the characters write. -/
def naturalOf? : List Char → Option Nat
  | '+' :: rest => digits? rest
  | cs => digits? cs

/-- The integer that the characters write. -/
def integerOf? : List Char → Option Int
  | '-' :: rest => (digits? rest).map fun n => -(n : Int)
  | cs => (naturalOf? cs).map fun n => (n : Int)

/-- The natural number that a text writes. -/
def natural? (text : String) : Option Nat := naturalOf? text.toList

/-- The unsigned number of 32 bits that a text writes. -/
def word32? (text : String) : Option UInt32 := do
  let n ← natural? text
  if n < UInt32.size then some (UInt32.ofNat n) else none

/-- The unsigned number of 64 bits that a text writes. -/
def word64? (text : String) : Option UInt64 := do
  let n ← natural? text
  if n < UInt64.size then some (UInt64.ofNat n) else none

/-- The signed number of 64 bits that a text writes. -/
def signedWord64? (text : String) : Option Int64 := do
  let n ← integerOf? text.toList
  if Int64.minValue.toInt ≤ n ∧ n ≤ Int64.maxValue.toInt then some (Int64.ofInt n) else none

end Numeral

end PriceArchive
