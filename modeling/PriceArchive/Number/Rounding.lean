namespace PriceArchive

/-- The quotient `n / d` to the nearest whole number, a half going up. -/
def roundHalfUp (n d : Nat) : Nat := (2 * n + d) / (2 * d)

theorem roundHalfUp_le {n d : Nat} (h : 0 < d) : roundHalfUp n d ≤ n := by
  have h1 : 2 * n + d < 2 * d * (n + 1) := by
    have : n ≤ d * n := Nat.le_mul_of_pos_left n h
    have : 2 * d * (n + 1) = 2 * (d * n) + 2 * d := by
      rw [Nat.mul_add, Nat.mul_one, Nat.mul_assoc]
    omega
  exact Nat.le_of_lt_succ (Nat.div_lt_of_lt_mul h1)

/-- The quotient `n / d` to the nearest whole number, a half going to the even one. -/
def roundHalfEven (n d : Nat) : Nat :=
  let q := n / d
  let r := n % d
  if 2 * r < d then q
  else if d < 2 * r then q + 1
  else q + q % 2

end PriceArchive
