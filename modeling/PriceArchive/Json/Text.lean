import PriceArchive.Json.Basic
import PriceArchive.Binary64.Shortest

namespace PriceArchive

namespace Json

/-- Four hexadecimal digits. -/
def hexChars (n : Nat) : List Char :=
  let digits := Nat.toDigits 16 n
  List.replicate (4 - digits.length) '0' ++ digits

/-- A character inside a written text. -/
def escapeChar (c : Char) : List Char :=
  if c = '"' then ['\\', '"']
  else if c = '\\' then ['\\', '\\']
  else if c = '\n' then ['\\', 'n']
  else if c = '\r' then ['\\', 'r']
  else if c = '\t' then ['\\', 't']
  else if c = '\x08' then ['\\', 'b']
  else if c = '\x0c' then ['\\', 'f']
  else if c.toNat < 0x20 then '\\' :: 'u' :: hexChars c.toNat
  else [c]

/-- A text in quotation marks. -/
def quote (s : String) : String := "\"" ++ String.ofList (s.toList.flatMap escapeChar) ++ "\""

/-- A number; a double without a fraction keeps a point, so that it reads back as a double. -/
def numberText : JsonNumber → String
  | .integer n => toString n
  | .real x =>
    match x.kind with
    | .finite _ _ _ => if x.toText.toList.contains '.' then x.toText else x.toText ++ ".0"
    | _ => "null"

mutual

/-- The text of a value. -/
def toText : Json → String
  | null => "null"
  | bool b => if b then "true" else "false"
  | number n => numberText n
  | string s => quote s
  | array items => "[" ++ itemsText items ++ "]"
  | object fields => "\x7b" ++ fieldsText fields ++ "\x7d"

/-- The texts of items, with commas between them. -/
def itemsText : List Json → String
  | [] => ""
  | [item] => toText item
  | item :: rest => toText item ++ "," ++ itemsText rest

/-- The texts of fields, with commas between them. -/
def fieldsText : List (String × Json) → String
  | [] => ""
  | [(name, value)] => quote name ++ ":" ++ toText value
  | (name, value) :: rest => quote name ++ ":" ++ toText value ++ "," ++ fieldsText rest

end

instance : ToString Json := ⟨toText⟩

end Json

end PriceArchive
