namespace PriceArchive

/-- What a field of a schedule counts. -/
inductive TimeUnit where
  | second
  | minute
  | hour
  | dayOfMonth
  | month
  /-- A day of the week; Sunday is the first. -/
  | dayOfWeek
  | year
  deriving DecidableEq

namespace TimeUnit

/-- The first value. -/
def first : TimeUnit → Nat
  | second | minute | hour => 0
  | dayOfMonth | month | dayOfWeek => 1
  | year => 1970

/-- The last value. -/
def last : TimeUnit → Nat
  | second | minute => 59
  | hour => 23
  | dayOfMonth => 31
  | month => 12
  | dayOfWeek => 7
  | year => 2100

theorem first_le_last (u : TimeUnit) : u.first ≤ u.last := by cases u <;> decide

/-- Whether a number is a value of the unit. -/
def Contains (u : TimeUnit) (n : Nat) : Prop := u.first ≤ n ∧ n ≤ u.last

instance instDecidableContains (u : TimeUnit) (n : Nat) : Decidable (u.Contains n) :=
  inferInstanceAs (Decidable (_ ∧ _))

/-- All values, in order. -/
def values (u : TimeUnit) : List Nat := (List.range (u.last - u.first + 1)).map (u.first + ·)

/-- The names of values, in lower case. -/
def names : TimeUnit → List (String × Nat)
  | month =>
    [("jan", 1), ("january", 1), ("feb", 2), ("february", 2), ("mar", 3), ("march", 3), ("apr", 4),
      ("april", 4), ("may", 5), ("jun", 6), ("june", 6), ("jul", 7), ("july", 7), ("aug", 8),
      ("august", 8), ("sep", 9), ("september", 9), ("oct", 10), ("october", 10), ("nov", 11),
      ("november", 11), ("dec", 12), ("december", 12)]
  | dayOfWeek =>
    [("sun", 1), ("sunday", 1), ("mon", 2), ("monday", 2), ("tue", 3), ("tues", 3), ("tuesday", 3),
      ("wed", 4), ("wednesday", 4), ("thu", 5), ("thurs", 5), ("thursday", 5), ("fri", 6),
      ("friday", 6), ("sat", 7), ("saturday", 7)]
  | _ => []

/-- The value with a name, in upper or lower case. -/
def ofName? (u : TimeUnit) (name : String) : Option Nat := u.names.lookup name.toLower

/-- Whether a question mark may stand for all values. -/
def allowsQuestionMark : TimeUnit → Bool
  | dayOfMonth | dayOfWeek => true
  | _ => false

end TimeUnit

end PriceArchive
