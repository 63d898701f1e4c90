namespace PriceArchive

/-- Ten to the `k`. -/
def tenPow (k : Nat) : Nat := Nat.pow 10 k

theorem tenPow_pos (k : Nat) : 0 < tenPow k := Nat.pow_pos (by decide)

theorem tenPow_succ (k : Nat) : tenPow (k + 1) = tenPow k * 10 := rfl

/-- Ten to the `e`, for an exponent of either sign. -/
def tenPower : Int → Rat
  | .ofNat k => (tenPow k : Nat)
  | .negSucc k => mkRat 1 (tenPow (k + 1))

/-- Two to the `e`, for an exponent of either sign. -/
def twoPower : Int → Rat
  | .ofNat k => (Nat.pow 2 k : Nat)
  | .negSucc k => mkRat 1 (Nat.pow 2 (k + 1))

/-- How many digits the number has in base ten; zero has one. -/
def digitCount (n : Nat) : Nat :=
  if n < 10 then 1 else digitCount (n / 10) + 1
decreasing_by omega

end PriceArchive
