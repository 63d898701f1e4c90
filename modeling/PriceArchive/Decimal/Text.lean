import PriceArchive.Decimal.Basic
import PriceArchive.Text.Digits

namespace PriceArchive

namespace Decimal

/-- Why a text is not a decimal. -/
inductive ReadError where
  | empty
  | noDigits
  | secondPoint
  /-- An underscore stands before the first digit. -/
  | leadingUnderscore
  /-- A character can stand in no decimal. -/
  | unknownCharacter
  /-- The digits before the point pass 96 bits. -/
  | tooManyDigits
  /-- Rounding up passes 96 bits and there is no fraction digit to give up. -/
  | roundingOverflow
  deriving DecidableEq

def ReadError.message : ReadError → String
  | .empty => "Invalid decimal: empty"
  | .noDigits => "Invalid decimal: no digits found"
  | .secondPoint => "Invalid decimal: two decimal points"
  | .leadingUnderscore => "Invalid decimal: must start lead with a number"
  | .unknownCharacter => "Invalid decimal: unknown character"
  | .tooManyDigits => "Invalid decimal: overflow from too many digits"
  | .roundingOverflow => "Invalid decimal: overflow from mantissa after rounding"

/-- What a character means where it cannot stand. -/
def ReadError.ofChar (c : Char) : ReadError :=
  if c = '.' then .secondPoint else if c = '_' then .leadingUnderscore else .unknownCharacter

/-- What has been read of a number: its digits and how many of them are fraction digits. -/
structure Progress where
  mantissa : Nat
  scale : Nat
  mantissa_lt : mantissa < mantissaLimit
  scale_le : scale ≤ maxScale

namespace Progress

/-- Nothing has been read. -/
def start : Progress := ⟨0, 0, zero.mantissa_lt, zero.scale_le⟩

/-- The decimal read so far. -/
def toDecimal (p : Progress) (negative : Bool) : Decimal :=
  ofParts negative p.mantissa p.scale p.mantissa_lt p.scale_le

/-- One more in the last place. Where that passes 96 bits, the last fraction digit is given up, a
half going up. -/
def increment (p : Progress) : Except ReadError Progress :=
  if h : p.mantissa + 1 < mantissaLimit then
    .ok ⟨p.mantissa + 1, p.scale, h, p.scale_le⟩
  else if p.scale = 0 then
    .error .roundingOverflow
  else
    .ok ⟨(p.mantissa + 1 + 4) / 10, p.scale - 1, by
      have hm := p.mantissa_lt
      have : mantissaLimit = 79228162514264337593543950336 := rfl
      omega, Nat.le_trans (Nat.sub_le _ _) p.scale_le⟩

/-- The number, rounded by the first digit that does not fit. -/
def round (p : Progress) (digit : Nat) : Except ReadError Progress :=
  if 5 ≤ digit then p.increment else .ok p

end Progress

/-- After the digits that count, only digits and underscores may follow. -/
def checkRest : List Char → Except ReadError Unit
  | [] => .ok ()
  | c :: rest => if c.isDigit || c = '_' then checkRest rest else .error (.ofChar c)

/-- Ends a number whose fraction is full at the digit `c`, which rounds it. An underscore rounds
like a zero. -/
def finishAt (p : Progress) (c : Char) (rest : List Char) : Except ReadError Progress :=
  match digit? c with
  | some d => do
    let rounded ← p.round d
    checkRest rest
    return rounded
  | none => do
    if c = '_' then checkRest rest else throw (.ofChar c)
    return p

/-- Ends a number that has all the fraction digits a decimal can have. A mantissa of more than 64
bits passes over the underscores before the digit that rounds. -/
def finish (p : Progress) : List Char → Except ReadError Progress
  | [] => .ok p
  | c :: rest =>
    if c = '_' && decide (Nat.pow 2 64 ≤ p.mantissa) then finish p rest else finishAt p c rest

/-- Reads the fraction digits. -/
def readFraction (p : Progress) (seenDigit : Bool) : List Char → Except ReadError Progress
  | [] => if seenDigit then .ok p else .error .noDigits
  | c :: rest =>
    match digit? c with
    | some d =>
      if hm : p.mantissa * 10 + d < mantissaLimit then
        if hs : p.scale + 1 < maxScale then
          readFraction ⟨p.mantissa * 10 + d, p.scale + 1, hm, Nat.le_of_lt hs⟩ true rest
        else if hs' : p.scale + 1 ≤ maxScale then
          finish ⟨p.mantissa * 10 + d, p.scale + 1, hm, hs'⟩ rest
        else
          finishAt p c rest
      else
        finishAt p c rest
    | none =>
      if c = '_' && seenDigit then readFraction p seenDigit rest else .error (.ofChar c)

/-- Reads the digits before the point and, after one, the fraction. -/
def readWhole (p : Progress) (seenDigit : Bool) : List Char → Except ReadError Progress
  | [] => if seenDigit then .ok p else .error .noDigits
  | c :: rest =>
    match digit? c with
    | some d =>
      if hm : p.mantissa * 10 + d < mantissaLimit then
        readWhole ⟨p.mantissa * 10 + d, p.scale, hm, p.scale_le⟩ true rest
      else
        .error .tooManyDigits
    | none =>
      if c = '.' then readFraction p seenDigit rest
      else if c = '_' && seenDigit then readWhole p seenDigit rest
      else .error (.ofChar c)

/-- Reads the characters of a decimal. -/
def readChars : List Char → Except ReadError Decimal
  | [] => .error .empty
  | '-' :: rest => (readWhole .start false rest).map (·.toDecimal true)
  | '+' :: rest => (readWhole .start false rest).map (·.toDecimal false)
  | cs => (readWhole .start false cs).map (·.toDecimal false)

def read (text : String) : Except ReadError Decimal := readChars text.toList

/-- The characters of a number with `scale` fraction digits: at least one digit stands before the
point, and without fraction digits there is no point. -/
def positional (mantissa scale : Nat) : List Char :=
  let digits := paddedDigits (scale + 1) mantissa
  let whole := digits.take (digits.length - scale)
  if scale = 0 then whole else whole ++ '.' :: digits.drop (digits.length - scale)

def toChars (d : Decimal) : List Char :=
  if d.negative then '-' :: positional d.mantissa d.scale else positional d.mantissa d.scale

/-- The text of a decimal, with as many fraction digits as its scale says. -/
def toText (d : Decimal) : String := String.ofList d.toChars

instance : ToString Decimal := ⟨toText⟩

/-- The value of a run of digits, as far as it fits 32 bits. -/
def exponentDigits? (n : Nat) : List Char → Option Nat
  | [] => some n
  | c :: rest => do
    let d ← digit? c
    if n * 10 + d < Nat.pow 2 32 then exponentDigits? (n * 10 + d) rest else none

/-- The size of an exponent: digits, with a plus sign or without. -/
def exponent? : List Char → Option Nat
  | [] => none
  | '+' :: [] => none
  | '+' :: digits => exponentDigits? 0 digits
  | digits => exponentDigits? 0 digits

/-- The decimal times ten to the `exponent`. The fraction gives its digits up first; past the point
the mantissa grows. -/
def shiftUp (d : Decimal) (exponent : Nat) : Option Decimal :=
  if exponent ≤ d.scale then
    ofParts? d.negative d.mantissa (d.scale - exponent)
  else if exponent ≤ maxScale then
    ofParts? d.negative (d.mantissa * tenPow (exponent - d.scale)) 0
  else
    none

/-- The decimal divided by ten to the `exponent`: as many more fraction digits. -/
def shiftDown (d : Decimal) (exponent : Nat) : Option Decimal :=
  ofParts? d.negative d.mantissa (d.scale + exponent)

/-- Whether a character divides a number from its exponent. -/
def isExponentMark (c : Char) : Bool := c = 'e' || c = 'E'

/-- Reads a decimal with an exponent. -/
def readScientific (text : String) : Option Decimal :=
  let cs := text.toList
  match cs.dropWhile fun c => !isExponentMark c with
  | [] => none
  | _ :: exponent => do
    let d ← (readChars (cs.takeWhile fun c => !isExponentMark c)).toOption
    match exponent with
    | '-' :: digits => d.shiftDown (← exponent? digits)
    | digits => d.shiftUp (← exponent? digits)

/-- Reads a decimal without an exponent or with one. The error is that of reading it without. -/
def readEither (text : String) : Except ReadError Decimal :=
  match read text with
  | .ok d => .ok d
  | .error e =>
    match readScientific text with
    | some d => .ok d
    | none => .error e

end Decimal

end PriceArchive
