import PriceArchive.Calendar.Text
import PriceArchive.Decimal.Text
import PriceArchive.Json.Text

namespace PriceArchive

namespace Json

/-- The fields of a record, as far as they are there, by name. -/
abbrev Fields := String → Option Json

/-- The fields of an object. -/
def fields? : Json → Option Fields
  | object fields => some fun name => lookup name fields
  | _ => none

/-- The fields of a record with these names, from an object or from an array of exactly its fields
in order. -/
def record? (names : List String) : Json → Option Fields
  | object fields => some fun name => lookup name fields
  | array items =>
    if items.length = names.length then some fun name => lookup name (names.zip items) else none
  | _ => none

/-- A field that has to be there. -/
def Fields.get {α : Type} (fields : Fields) (name : String) (read : Json → Option α) : Option α := do
  read (← fields name)

/-- A field that may be missing, or null. -/
def Fields.getOption {α : Type} (fields : Fields) (name : String) (read : Json → Option α) :
    Option (Option α) :=
  match fields name with
  | none => some none
  | some null => some none
  | some j => (read j).map some

/-- The JSON form of a decimal. -/
def ofDecimal (d : Decimal) : Json := string d.toText

/-- The decimal that a double denotes by its shortest digits. -/
def decimalOfReal? (x : Binary64) : Option Decimal := (Decimal.read x.toText).toOption

/-- Reads a decimal: a text, with an exponent or without, or a number. -/
def decimal? : Json → Option Decimal
  | string s => (Decimal.readEither s).toOption
  | number (.integer n) => Decimal.ofParts? (decide (n < 0)) n.natAbs 0
  | number (.real x) => decimalOfReal? x
  | _ => none

/-- The JSON form of a volume. -/
def ofVolume (v : UInt64) : Json := ofInt v.toNat

/-- Reads a volume: an integer of 64 bits without a sign. -/
def volume? (j : Json) : Option UInt64 := do
  let n ← j.integer?
  if 0 ≤ n ∧ n.toNat < UInt64.size then some (UInt64.ofNat n.toNat) else none

/-- Reads a signed integer of 64 bits. -/
def signedWord? (j : Json) : Option Int64 := do
  let n ← j.integer?
  if Int64.minValue.toInt ≤ n ∧ n ≤ Int64.maxValue.toInt then some (Int64.ofInt n) else none

/-- The JSON form of an instant. -/
def ofInstant (t : Instant) : Json := string t.toText

/-- Reads an instant. -/
def instant? (j : Json) : Option Instant := do Instant.read? (← j.string?)

end Json

end PriceArchive
