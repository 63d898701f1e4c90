import PriceArchive.Schedule.TimeUnit
import PriceArchive.Text.Digits

namespace PriceArchive

namespace Field

/-- A run of values as a field writes it. -/
inductive Run where
  /-- All values. -/
  | all
  /-- One value. -/
  | single (n : Nat)
  /-- The values between two, both included. -/
  | range (first last : Nat)
  /-- The values between two that are given by name. -/
  | namedRange (first last : String)
  deriving DecidableEq

/-- An item of a field as it is written. -/
inductive Item where
  | run (r : Run)
  /-- Some values of a run: the first and then every so many. -/
  | stepped (r : Run) (step : Nat)
  /-- One value, by name. -/
  | name (s : String)
  deriving DecidableEq

/-- The values between two of a unit, both included. -/
def between? (u : TimeUnit) (first last : Nat) : Option (List Nat) :=
  if u.Contains first ∧ u.Contains last ∧ first ≤ last then
    some ((List.range (last - first + 1)).map (first + ·))
  else none

/-- The values of a run. -/
def Run.values? (u : TimeUnit) : Run → Option (List Nat)
  | .all => some u.values
  | .single n => if u.Contains n then some [n] else none
  | .range first last => between? u first last
  | .namedRange first last => do between? u (← u.ofName? first) (← u.ofName? last)

/-- The values from which the steps of a run are taken: a single value starts a run to the last. -/
def Run.steppedValues? (u : TimeUnit) : Run → Option (List Nat)
  | .single n => between? u n u.last
  | r => r.values? u

/-- The first of every so many items, with `skipped` items to be left out first. -/
def everyFrom (step skipped : Nat) : List Nat → List Nat
  | [] => []
  | n :: rest =>
    match skipped with
    | 0 => n :: everyFrom step (step - 1) rest
    | k + 1 => everyFrom step k rest

/-- The values of an item; a step is at least one. -/
def Item.values? (u : TimeUnit) : Item → Option (List Nat)
  | .run r => r.values? u
  | .stepped r step =>
    if step = 0 then none else (r.steppedValues? u).map (everyFrom step 0)
  | .name s => (u.ofName? s).map fun n => [n]

/-- The values that the items of a field list. -/
def values? (u : TimeUnit) : List Item → Option (List Nat)
  | [] => some []
  | item :: rest => do
    let ns ← item.values? u
    let more ← values? u rest
    return ns ++ more

/-- A reader splits what it reads from the front of a text. -/
abbrev Reader (α : Type) := List Char → Option (α × List Char)

/-- The text after the white space at its front. -/
def skipSpace (cs : List Char) : List Char := cs.dropWhile Char.isWhitespace

/-- Reads one character. -/
def mark (c : Char) : Reader Unit
  | [] => none
  | d :: rest => if c = d then some ((), rest) else none

/-- Reads a number of at most 32 bits, with the white space around it. -/
def number : Reader Nat := fun cs => do
  let (run, rest) ← takeAllDigits (skipSpace cs)
  let n := foldDigits 0 run
  if n < UInt32.size then some (n, skipSpace rest) else none

/-- Reads a run of letters, with the white space around it. -/
def word : Reader String := fun cs =>
  let run := (skipSpace cs).takeWhile Char.isAlpha
  if run.isEmpty then none
  else some (String.ofList run, skipSpace ((skipSpace cs).drop run.length))

/-- Reads two things with a character between them. -/
def separated {α β : Type} (left : Reader α) (c : Char) (right : Reader β) : Reader (α × β) :=
  fun cs => do
    let (a, cs) ← left cs
    let (_, cs) ← mark c cs
    let (b, cs) ← right cs
    return ((a, b), cs)

/-- Reads with the first of two readers that can. -/
def either {α : Type} (one other : Reader α) : Reader α := fun cs => (one cs).or (other cs)

/-- Changes what a reader answers. -/
def mapped {α β : Type} (f : α → β) (reader : Reader α) : Reader β := fun cs =>
  (reader cs).map fun (a, rest) => (f a, rest)

/-- Reads a run that does not stand for all values by a question mark. -/
def plainRun : Reader Run :=
  either (mapped (fun _ => .all) (mark '*')) <|
  either (mapped (fun (a, b) => .range a b) (separated number '-' number)) <|
  either (mapped .single number) <|
  mapped (fun (a, b) => .namedRange a b) (separated word '-' word)

/-- Reads a run. -/
def run (u : TimeUnit) : Reader Run :=
  if u.allowsQuestionMark then either (mapped (fun _ => .all) (mark '?')) plainRun else plainRun

/-- Reads an item. -/
def item (u : TimeUnit) : Reader Item :=
  either (mapped (fun (r, step) => .stepped r step) (separated (run u) '/' number)) <|
  either (mapped .run (run u)) <|
  mapped .name word

/-- Reads a comma and what follows it. -/
def afterComma {α : Type} (reader : Reader α) : Reader α := fun cs => do
  let (_, rest) ← mark ',' cs
  reader rest

/-- Reads items that each follow a comma; it ends before a comma that no item follows. -/
def moreItems (u : TimeUnit) (cs : List Char) : List Item × List Char :=
  match afterComma (item u) cs with
  | none => ([], cs)
  | some (i, rest) =>
    if rest.length < cs.length then
      let (items, rest) := moreItems u rest
      (i :: items, rest)
    else
      ([i], rest)
termination_by cs.length

/-- Reads a field, with the white space around it. -/
def read (u : TimeUnit) : Reader (List Item) := fun cs => do
  let (i, rest) ← item u (skipSpace cs)
  let (items, rest) := moreItems u rest
  return (i :: items, skipSpace rest)

/-- Reads a field for the values that it lists. -/
def readValues (u : TimeUnit) : Reader (List Nat) := fun cs => do
  let (items, rest) ← read u cs
  let ns ← values? u items
  return (ns, rest)

end Field

end PriceArchive
