namespace PriceArchive

/-- The value of an ASCII digit. -/
def digit? (c : Char) : Option Nat :=
  if c.isDigit then some (c.toNat - '0'.toNat) else none

/-- The number that a run of digits denotes, going on from `n`; other characters count as none. -/
def foldDigits (n : Nat) (cs : List Char) : Nat :=
  cs.foldl (fun n c => n * 10 + (digit? c).getD 0) n

/-- The number that a text of digits denotes; it has at least one and nothing else. -/
def digits? (cs : List Char) : Option Nat :=
  if cs.isEmpty || !cs.all Char.isDigit then none else some (foldDigits 0 cs)

/-- Splits a run of at least one and at most `limit` digits from the front of a text. -/
def takeDigits (limit : Nat) (cs : List Char) : Option (List Char × List Char) :=
  let run := (cs.take limit).takeWhile Char.isDigit
  if run.isEmpty then none else some (run, cs.drop run.length)

/-- Splits a run of at least one digit from the front of a text. -/
def takeAllDigits (cs : List Char) : Option (List Char × List Char) :=
  takeDigits cs.length cs

/-- The digits of a number, at least `width` of them. -/
def paddedDigits (width n : Nat) : List Char :=
  let digits := Nat.toDigits 10 n
  List.replicate (width - digits.length) '0' ++ digits

end PriceArchive
