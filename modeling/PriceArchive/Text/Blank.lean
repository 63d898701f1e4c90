namespace PriceArchive

/-- Whether a character is white space in Unicode. -/
def isBlank (c : Char) : Bool :=
  let n := c.toNat
  (decide (0x09 ≤ n) && decide (n ≤ 0x0D)) || n == 0x20 || n == 0x85 || n == 0xA0 || n == 0x1680 ||
    (decide (0x2000 ≤ n) && decide (n ≤ 0x200A)) || n == 0x2028 || n == 0x2029 || n == 0x202F ||
    n == 0x205F || n == 0x3000

theorem isWhitespace_cases {c : Char} (h : c.isWhitespace = true) :
    c = ' ' ∨ c = '\t' ∨ c = '\r' ∨ c = '\n' := by
  simpa [Char.isWhitespace, or_assoc] using h

theorem isBlank_of_isWhitespace {c : Char} (h : c.isWhitespace = true) : isBlank c = true := by
  rcases isWhitespace_cases h with rfl | rfl | rfl | rfl <;> decide

/-- The characters after the white space at the start. -/
def dropBlanks (cs : List Char) : List Char := cs.dropWhile isBlank

/-- How many runs of characters other than white space there are, with `inside` telling that one has
begun before the text. -/
def countWords (inside : Bool) : List Char → Nat
  | [] => 0
  | c :: rest =>
    if isBlank c then countWords false rest
    else if inside then countWords true rest
    else countWords true rest + 1

/-- How many parts a text has when it is split at white space. -/
def wordCount (text : String) : Nat := countWords false text.toList

end PriceArchive
