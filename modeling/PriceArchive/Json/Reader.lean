import PriceArchive.Json.Basic
import PriceArchive.Text.Digits

namespace PriceArchive

namespace Json

/-- The largest power of ten that a double comes near to. -/
def maxTenExponent : Nat := 308

/-- The first size that no double reaches. -/
def doubleLimit : Rat := twoPower 1024

/-- The size of a double, divided so many times by the largest power of ten. -/
def divideBlocks (x : Rat) : Nat → Rat
  | 0 => x
  | blocks + 1 =>
    divideBlocks (Binary64.nearest (x / Binary64.nearest (tenPow maxTenExponent : Nat))) blocks

/-- The size of a double below `2 ^ 64`, divided by ten to the `exponent`, in steps of at most the
largest power that a double can hold; three of those leave nothing. -/
def scaleDown (x : Rat) (exponent : Nat) : Rat :=
  let blocks := (exponent - 1) / maxTenExponent
  let rest := exponent - blocks * maxTenExponent
  Binary64.nearest (divideBlocks x (min blocks 3) / Binary64.nearest (tenPow rest : Nat))

/-- The size of a double, times ten to the `exponent`, if a double can hold it. -/
def scaleUp (x : Rat) (exponent : Nat) : Option Rat :=
  if exponent ≤ maxTenExponent then
    let product := Binary64.nearest (x * Binary64.nearest (tenPow exponent : Nat))
    if doubleLimit ≤ product then none else some product
  else if x = 0 then some 0
  else none

/-- The double with these digits and this exponent. -/
def realOf (negative : Bool) (digits : Nat) (exponent : Int) : Option JsonNumber := do
  let start := Binary64.nearest digits
  let size ←
    match exponent with
    | .ofNat e => scaleUp start e
    | .negSucc e => some (scaleDown start (e + 1))
  return .real (Binary64.ofMagnitude negative size)

/-- The integer with these digits, or the double where it is no integer of 64 bits. Zero below zero
is a double. -/
def integerOf (negative : Bool) (digits : Nat) : JsonNumber :=
  if negative then
    if digits = 0 ∨ Nat.pow 2 63 < digits then
      .real (Binary64.ofMagnitude true (Binary64.nearest digits))
    else .integer (-digits)
  else .integer digits

/-- The largest number of 64 bits. -/
def maxWord : Nat := Nat.pow 2 64 - 1

/-- The leading digits of a run as far as they fit 64 bits, going on from `n`, and how many digits
are left. -/
def leadingDigits (n : Nat) : List Char → Nat × Nat
  | [] => (n, 0)
  | c :: rest =>
    let next := n * 10 + (digit? c).getD 0
    if next ≤ maxWord then leadingDigits next rest else (n, rest.length + 1)

/-- The largest exponent that is told from larger ones. -/
def maxExponent : Nat := Nat.pow 2 31 - 1

/-- Reads what follows the exponent mark. -/
def readExponent (cs : List Char) : Option (Int × List Char) :=
  match cs with
  | '-' :: rest => (takeAllDigits rest).map fun (run, rest) =>
      (-(Nat.min (foldDigits 0 run) maxExponent : Int), rest)
  | '+' :: rest => (takeAllDigits rest).map fun (run, rest) =>
      ((Nat.min (foldDigits 0 run) maxExponent : Int), rest)
  | _ => (takeAllDigits cs).map fun (run, rest) =>
      ((Nat.min (foldDigits 0 run) maxExponent : Int), rest)

/-- Reads the exponent, if there is one, of a number with these digits. -/
def readScale (negative : Bool) (digits : Nat) (exponent : Int) (cs : List Char) :
    Option (JsonNumber × List Char) :=
  match cs with
  | 'e' :: rest | 'E' :: rest => do
    let (e, rest) ← readExponent rest
    return (← realOf negative digits (exponent + e), rest)
  | _ => do return (← realOf negative digits exponent, cs)

/-- Reads a number without its sign. -/
def readUnsigned (negative : Bool) (cs : List Char) : Option (JsonNumber × List Char) := do
  let (run, rest) ← takeAllDigits cs
  if run.length ≠ 1 ∧ run.head? = some '0' then none
  else
    let (digits, left) := leadingDigits 0 run
    match rest with
    | '.' :: rest => do
      let (fraction, rest) ← takeAllDigits rest
      let (digits, cut) := leadingDigits digits fraction
      readScale negative digits (left - (fraction.length - cut : Nat)) rest
    | 'e' :: _ | 'E' :: _ => readScale negative digits left rest
    | _ =>
      if left = 0 then some (integerOf negative digits, rest)
      else do return (← realOf negative digits left, rest)

/-- Reads a number. -/
def readNumber : List Char → Option (JsonNumber × List Char)
  | '-' :: rest => readUnsigned true rest
  | cs => readUnsigned false cs

/-- The value of a hexadecimal digit. -/
def hexDigit? (c : Char) : Option Nat :=
  if c.isDigit then some (c.toNat - '0'.toNat)
  else if 'a' ≤ c ∧ c ≤ 'f' then some (c.toNat - 'a'.toNat + 10)
  else if 'A' ≤ c ∧ c ≤ 'F' then some (c.toNat - 'A'.toNat + 10)
  else none

/-- The number that four hexadecimal digits denote. -/
def hexUnit? (a b c d : Char) : Option Nat := do
  return (((← hexDigit? a) * 16 + (← hexDigit? b)) * 16 + (← hexDigit? c)) * 16 + (← hexDigit? d)

/-- The character that an escape of one letter stands for. -/
def simpleEscape? (c : Char) : Option Char :=
  if c = '"' ∨ c = '\\' ∨ c = '/' then some c
  else if c = 'b' then some '\x08'
  else if c = 'f' then some '\x0c'
  else if c = 'n' then some '\n'
  else if c = 'r' then some '\r'
  else if c = 't' then some '\t'
  else none

/-- Reads the rest of a text after its opening quotation mark; `acc` holds the characters so far, the
last one first. -/
def readString (acc : List Char) : List Char → Option (String × List Char)
  | '"' :: rest => some (String.ofList acc.reverse, rest)
  | '\\' :: 'u' :: a :: b :: c :: d :: rest => do
    let unit ← hexUnit? a b c d
    if 0xD800 ≤ unit ∧ unit < 0xDC00 then
      match rest with
      | '\\' :: 'u' :: a :: b :: c :: d :: rest => do
        let low ← hexUnit? a b c d
        if 0xDC00 ≤ low ∧ low < 0xE000 then
          readString (Char.ofNat (0x10000 + (unit - 0xD800) * 0x400 + (low - 0xDC00)) :: acc) rest
        else none
      | _ => none
    else if 0xDC00 ≤ unit ∧ unit < 0xE000 then none
    else readString (Char.ofNat unit :: acc) rest
  | '\\' :: c :: rest => do readString ((← simpleEscape? c) :: acc) rest
  | c :: rest => if c.toNat < 0x20 then none else readString (c :: acc) rest
  | [] => none

/-- The text after the white space of JSON. -/
def dropSpace (cs : List Char) : List Char := cs.dropWhile Char.isWhitespace

mutual

/-- Reads a value, with at most `fuel` steps. -/
def readValue (fuel : Nat) (cs : List Char) : Option (Json × List Char) :=
  match fuel with
  | 0 => none
  | fuel + 1 =>
    match dropSpace cs with
    | 'n' :: 'u' :: 'l' :: 'l' :: rest => some (null, rest)
    | 't' :: 'r' :: 'u' :: 'e' :: rest => some (bool true, rest)
    | 'f' :: 'a' :: 'l' :: 's' :: 'e' :: rest => some (bool false, rest)
    | '"' :: rest => (readString [] rest).map fun (s, rest) => (string s, rest)
    | '[' :: rest =>
      match dropSpace rest with
      | ']' :: rest => some (array [], rest)
      | _ => (readItems fuel rest).map fun (items, rest) => (array items, rest)
    | '\x7b' :: rest =>
      match dropSpace rest with
      | '\x7d' :: rest => some (object [], rest)
      | _ => (readFields fuel rest).map fun (fields, rest) => (object (distinctFields fields), rest)
    | cs => (readNumber cs).map fun (n, rest) => (number n, rest)

/-- Reads the items of an array up to its end. -/
def readItems (fuel : Nat) (cs : List Char) : Option (List Json × List Char) :=
  match fuel with
  | 0 => none
  | fuel + 1 => do
    let (item, rest) ← readValue fuel cs
    match dropSpace rest with
    | ']' :: rest => some ([item], rest)
    | ',' :: rest => do
      let (items, rest) ← readItems fuel rest
      return (item :: items, rest)
    | _ => none

/-- Reads the fields of an object up to its end. -/
def readFields (fuel : Nat) (cs : List Char) : Option (List (String × Json) × List Char) :=
  match fuel with
  | 0 => none
  | fuel + 1 =>
    match dropSpace cs with
    | '"' :: rest => do
      let (name, rest) ← readString [] rest
      match dropSpace rest with
      | ':' :: rest => do
        let (value, rest) ← readValue fuel rest
        match dropSpace rest with
        | '\x7d' :: rest => some ([(name, value)], rest)
        | ',' :: rest => do
          let (fields, rest) ← readFields fuel rest
          return ((name, value) :: fields, rest)
        | _ => none
      | _ => none
    | _ => none

end

/-- Reads a text that holds one value. Every step takes a character, so twice the length is fuel
enough. -/
def read? (text : String) : Option Json := do
  let cs := text.toList
  let (value, rest) ← readValue (2 * cs.length + 2) cs
  if (dropSpace rest).isEmpty then some value else none

end Json

end PriceArchive
