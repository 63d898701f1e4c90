import PriceArchive.Binary64.Basic

namespace PriceArchive

/-- A JSON number. -/
inductive JsonNumber where
  | integer (n : Int)
  | real (x : Binary64)
  deriving DecidableEq

/-- A JSON value. -/
inductive Json where
  | null
  | bool (b : Bool)
  | number (n : JsonNumber)
  | string (s : String)
  | array (items : List Json)
  | object (fields : List (String × Json))

namespace Json

instance : Inhabited Json := ⟨null⟩

/-- The value of an integer. -/
def ofInt (n : Int) : Json := number (.integer n)

/-- The value of a list of texts. -/
def ofStrings (xs : List String) : Json := array (xs.map string)

/-- The value of what may be missing. -/
def ofOption {α : Type} (f : α → Json) : Option α → Json
  | some x => f x
  | none => null

/-- The value under a name. -/
def lookup (name : String) : List (String × Json) → Option Json
  | [] => none
  | (key, value) :: rest => if key = name then some value else lookup name rest

/-- The fields with one of this name set to a value, in its old place if there was one. -/
def setField (name : String) (value : Json) : List (String × Json) → List (String × Json)
  | [] => [(name, value)]
  | (key, old) :: rest =>
    if key = name then (key, value) :: rest else (key, old) :: setField name value rest

/-- The fields, each name once; of two fields with one name the last counts. -/
def distinctFields (fields : List (String × Json)) : List (String × Json) :=
  fields.foldl (fun acc (name, value) => setField name value acc) []

/-- The field of an object with this name. -/
def field? (name : String) : Json → Option Json
  | object fields => lookup name fields
  | _ => none

/-- The text that a value is. -/
def string? : Json → Option String
  | string s => some s
  | _ => none

/-- The truth value that a value is. -/
def bool? : Json → Option Bool
  | bool b => some b
  | _ => none

/-- The integer that a value is; a number with a point or an exponent is none. -/
def integer? : Json → Option Int
  | number (.integer n) => some n
  | _ => none

/-- The items of an array. -/
def array? : Json → Option (List Json)
  | array items => some items
  | _ => none

/-- The texts of an array of texts. -/
def strings? (j : Json) : Option (List String) := do (← j.array?).mapM string?

end Json

end PriceArchive
