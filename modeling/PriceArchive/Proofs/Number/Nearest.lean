import PriceArchive.Binary64.Basic
import PriceArchive.Proofs.Number.Whole
import Mathlib.Algebra.Order.Field.Power
import Mathlib.Data.Nat.Cast.Order.Field
import Mathlib.Tactic.Positivity

namespace PriceArchive

theorem twoPower_eq_zpow (e : Int) : twoPower e = (2 : ℚ) ^ e := by
  cases e with
  | ofNat k =>
    rw [twoPower, Int.ofNat_eq_natCast, zpow_natCast]
    exact Nat.cast_pow 2 k
  | negSucc k =>
    have hpow : ((Nat.pow 2 (k + 1) : Nat) : ℚ) = 2 ^ (k + 1) := Nat.cast_pow 2 (k + 1)
    rw [twoPower, zpow_negSucc, Rat.mkRat_eq_div, hpow, Int.cast_one, one_div]

namespace Binary64

variable {x : Rat}

/-- A quotient of powers of two. -/
theorem two_pow_div (a b : ℕ) : (2 : ℚ) ^ a / 2 ^ b = 2 ^ ((a : Int) - b) := by
  rw [zpow_sub₀ two_ne_zero, zpow_natCast, zpow_natCast]

/-- The binary exponent is that of the largest power of two that the number reaches. -/
theorem binaryExponent_bounds (hx : 0 < x) :
    (2 : ℚ) ^ binaryExponent x ≤ x ∧ x < (2 : ℚ) ^ (binaryExponent x + 1) := by
  have hnum : x.num.toNat ≠ 0 := by
    have := Rat.num_pos.mpr hx
    omega
  have hn : ((2 : ℚ) ^ x.num.toNat.log2 ≤ x.num.toNat) ∧
      (x.num.toNat : ℚ) < 2 ^ (x.num.toNat.log2 + 1) := by
    exact_mod_cast And.intro (Nat.log2_self_le hnum) Nat.lt_log2_self
  have hd : ((2 : ℚ) ^ x.den.log2 ≤ x.den) ∧ (x.den : ℚ) < 2 ^ (x.den.log2 + 1) := by
    exact_mod_cast And.intro (Nat.log2_self_le x.den_nz) Nat.lt_log2_self
  have hden : (0 : ℚ) < x.den := by exact_mod_cast x.den_pos
  have hupper : x < (2 : ℚ) ^ ((x.num.toNat.log2 : Int) - x.den.log2 + 1) :=
    calc x = x.num.toNat / x.den := (div_eq_of_nonneg hx.le).symm
      _ < 2 ^ (x.num.toNat.log2 + 1) / 2 ^ x.den.log2 :=
        div_lt_div₀ hn.2 hd.1 (by positivity) (by positivity)
      _ = 2 ^ ((x.num.toNat.log2 : Int) - x.den.log2 + 1) := by
        rw [two_pow_div]
        congr 1
        omega
  have hlower : (2 : ℚ) ^ ((x.num.toNat.log2 : Int) - x.den.log2 - 1) ≤ x :=
    calc (2 : ℚ) ^ ((x.num.toNat.log2 : Int) - x.den.log2 - 1)
      _ = 2 ^ x.num.toNat.log2 / 2 ^ (x.den.log2 + 1) := by
        rw [two_pow_div]
        congr 1
        omega
      _ ≤ x.num.toNat / x.den := div_le_div₀ (by positivity) hn.1 hden hd.2.le
      _ = x := div_eq_of_nonneg hx.le
  rw [binaryExponent, twoPower_eq_zpow]
  split
  · rename_i hle
    exact ⟨hle, hupper⟩
  · rename_i hlt
    rw [sub_add_cancel]
    exact ⟨hlower, not_le.mp hlt⟩

theorem unitExponent_eq (x : Rat) : unitExponent x = max (binaryExponent x - 52) (-1074) := rfl

theorem unitCount_eq (x : ℚ) : unitCount x = wholeEven (x * (2 : ℚ) ^ (-unitExponent x)) := by
  rw [unitCount, twoPower_eq_zpow]
  rfl

theorem nearest_zero : nearest 0 = 0 := if_pos rfl

theorem nearest_of_pos (hx : 0 < x) : nearest x = unitCount x * (2 : ℚ) ^ unitExponent x := by
  rw [nearest, if_neg hx.ne', twoPower_eq_zpow]

theorem nearest_nonneg (x : Rat) : 0 ≤ nearest x := by
  rw [nearest, twoPower_eq_zpow]
  split
  · exact le_rfl
  · positivity

/-- The units in the last place of a number fill 53 bits, or are rounded up to the first number that
does not. -/
theorem unitCount_le_two_pow (hx : 0 < x) : unitCount x ≤ 2 ^ 53 := by
  have hexponent : -unitExponent x ≤ 52 - binaryExponent x := by
    rw [unitExponent_eq]
    omega
  have hscaled : x * (2 : ℚ) ^ (-unitExponent x) < 2 ^ 53 :=
    calc x * (2 : ℚ) ^ (-unitExponent x)
      _ < 2 ^ (binaryExponent x + 1) * 2 ^ (-unitExponent x) := by
        gcongr
        exact (binaryExponent_bounds hx).2
      _ ≤ 2 ^ (binaryExponent x + 1) * 2 ^ (52 - binaryExponent x) := by
        gcongr
        exact one_le_two
      _ = 2 ^ (53 : Int) := by
        rw [← zpow_add₀ two_ne_zero]
        congr 1
        omega
  have hpicked := abs_le.mp (abs_wholeEven_sub_le (y := x * (2 : ℚ) ^ (-unitExponent x)) (by positivity))
  rw [unitCount_eq]
  have hlt : (wholeEven (x * (2 : ℚ) ^ (-unitExponent x)) : ℚ) < ((2 ^ 53 + 1 : ℕ) : ℚ) := by
    push_cast
    linarith
  exact Nat.lt_succ_iff.mp (by exact_mod_cast hlt)

end Binary64

end PriceArchive
