import PriceArchive.Number.Rounding
import Mathlib.Algebra.Order.Field.Basic
import Mathlib.Data.Rat.Cast.Order
import Mathlib.Tactic.FieldSimp
import Mathlib.Tactic.Linarith
import Mathlib.Tactic.Ring

namespace PriceArchive

/-- The nearest whole number, a half going to the even one. -/
def wholeEven (y : Rat) : Nat := roundHalfEven y.num.toNat y.den

/-- The nearest whole number, a half going up. -/
def wholeUp (y : Rat) : Nat := roundHalfUp y.num.toNat y.den

variable {y : ℚ}

/-- A number that is not negative, as a quotient of natural numbers. -/
theorem div_eq_of_nonneg (hy : 0 ≤ y) : (y.num.toNat : ℚ) / y.den = y := by
  have hnum : ((y.num.toNat : Int) : ℚ) = y.num := by
    rw [Int.toNat_of_nonneg (Rat.num_nonneg.mpr hy)]
  rw [← Int.cast_natCast, hnum]
  exact Rat.num_div_den y

/-- Two whole numbers are not both nearer than a half. -/
theorem one_le_abs_sub_add (y : ℚ) {n k : ℤ} (hne : n ≠ k) :
    1 ≤ |(n : ℚ) - y| + |(k : ℚ) - y| :=
  calc (1 : ℚ) ≤ |(n : ℚ) - k| := by exact_mod_cast Int.one_le_abs (sub_ne_zero.mpr hne)
    _ ≤ |(n : ℚ) - y| + |y - k| := abs_sub_le ..
    _ = |(n : ℚ) - y| + |(k : ℚ) - y| := by rw [abs_sub_comm y]

/-- A number that is picked lies within a half, and is even if it lies as far as that. -/
def PickedEven (y : ℚ) (n : Nat) : Prop :=
  |(n : ℚ) - y| < 1 / 2 ∨ |(n : ℚ) - y| = 1 / 2 ∧ n % 2 = 0

namespace PickedEven

variable {n k : Nat}

theorem dist_le (h : PickedEven y n) : |(n : ℚ) - y| ≤ 1 / 2 :=
  h.elim le_of_lt fun h => h.1.le

/-- At most one whole number is picked: of two neighbours one is odd. -/
theorem unique (hn : PickedEven y n) (hk : PickedEven y k) : n = k := by
  by_contra hne
  have hapart := one_le_abs_sub_add y (n := n) (k := k) (by omega)
  rw [Int.cast_natCast, Int.cast_natCast] at hapart
  have hnle := hn.dist_le
  have hkle := hk.dist_le
  have hnEven := hn.resolve_left (by linarith)
  have hkEven := hk.resolve_left (by linarith)
  have hdist : |(n : ℚ) - k| ≤ 1 :=
    calc |(n : ℚ) - k| ≤ |(n : ℚ) - y| + |y - k| := abs_sub_le ..
      _ = |(n : ℚ) - y| + |(k : ℚ) - y| := by rw [abs_sub_comm y]
      _ ≤ 1 := by linarith
  have hdist : |(n : ℤ) - k| ≤ 1 := by exact_mod_cast hdist
  rw [abs_le] at hdist
  omega

end PickedEven

theorem roundHalfEven_picked (n : Nat) {d : Nat} (hd : 0 < d) :
    PickedEven ((n : ℚ) / d) (roundHalfEven n d) := by
  have hdpos : (0 : ℚ) < d := by exact_mod_cast hd
  have hsplit : (n : ℚ) / d = (n / d : ℕ) + (n % d : ℕ) / d := by
    have hn : (n : ℚ) = d * (n / d : ℕ) + (n % d : ℕ) := by
      exact_mod_cast (Nat.div_add_mod n d).symm
    rw [div_eq_iff hdpos.ne', add_mul, div_mul_cancel₀ _ hdpos.ne']
    linarith
  have hrest : (0 : ℚ) ≤ (n % d : ℕ) / d := by positivity
  rw [hsplit, roundHalfEven]
  split
  · rename_i hlow
    have hlow : ((n % d : ℕ) : ℚ) / d < 1 / 2 := by
      rw [div_lt_div_iff₀ hdpos two_pos]
      exact_mod_cast (by omega : n % d * 2 < 1 * d)
    left
    rw [abs_lt]
    constructor <;> linarith
  · split
    · rename_i hhigh
      have hhigh : 1 / 2 < ((n % d : ℕ) : ℚ) / d := by
        rw [div_lt_div_iff₀ two_pos hdpos]
        exact_mod_cast (by omega : 1 * d < n % d * 2)
      have hlt : ((n % d : ℕ) : ℚ) / d < 1 := by
        rw [div_lt_one hdpos]
        exact_mod_cast Nat.mod_lt n hd
      left
      rw [Nat.cast_add, Nat.cast_one, abs_lt]
      constructor <;> linarith
    · have htie : ((n % d : ℕ) : ℚ) / d = 1 / 2 := by
        rw [div_eq_div_iff hdpos.ne' two_ne_zero]
        exact_mod_cast (by omega : n % d * 2 = 1 * d)
      right
      refine ⟨?_, by omega⟩
      rw [htie, abs_eq (by norm_num)]
      rcases Nat.mod_two_eq_zero_or_one (n / d) with heven | hodd
      · right
        simp [heven]
      · left
        rw [hodd]
        push_cast
        ring

theorem wholeEven_picked (hy : 0 ≤ y) : PickedEven y (wholeEven y) := by
  have h := roundHalfEven_picked y.num.toNat y.den_pos
  rwa [div_eq_of_nonneg hy] at h

theorem wholeEven_eq_iff (hy : 0 ≤ y) (n : Nat) : wholeEven y = n ↔ PickedEven y n :=
  ⟨fun h => h ▸ wholeEven_picked hy, fun h => (wholeEven_picked hy).unique h⟩

theorem abs_wholeEven_sub_le (hy : 0 ≤ y) : |(wholeEven y : ℚ) - y| ≤ 1 / 2 :=
  (wholeEven_picked hy).dist_le

/-- No whole number is nearer than the one that is picked. -/
theorem abs_wholeEven_sub_le_abs_sub (hy : 0 ≤ y) (k : ℤ) :
    |(wholeEven y : ℚ) - y| ≤ |(k : ℚ) - y| := by
  have hpicked := abs_wholeEven_sub_le hy
  rcases eq_or_ne (wholeEven y : ℤ) k with rfl | hne
  · rw [Int.cast_natCast]
  · have hapart := one_le_abs_sub_add y hne
    rw [Int.cast_natCast] at hapart
    linarith

theorem wholeUp_eq_iff (hy : 0 ≤ y) (n : Nat) :
    wholeUp y = n ↔ (n : ℚ) - 1 / 2 ≤ y ∧ y < n + 1 / 2 := by
  have hden : (0 : ℚ) < y.den := by exact_mod_cast y.den_pos
  have hnum : y = y.num.toNat / y.den := (div_eq_of_nonneg hy).symm
  have hlower : (n : ℚ) - 1 / 2 ≤ y ↔ n * (2 * y.den) ≤ 2 * y.num.toNat + y.den := by
    nth_rewrite 1 [hnum]
    rw [le_div_iff₀ hden, ← Nat.cast_le (α := ℚ)]
    push_cast
    constructor <;> intro h <;> linarith
  have hupper : y < n + 1 / 2 ↔ 2 * y.num.toNat + y.den < (n + 1) * (2 * y.den) := by
    nth_rewrite 1 [hnum]
    rw [div_lt_iff₀ hden, ← Nat.cast_lt (α := ℚ)]
    push_cast
    constructor <;> intro h <;> linarith
  have hpos : 0 < 2 * y.den := by
    have := y.den_pos
    omega
  rw [hlower, hupper, wholeUp, roundHalfUp, ← Nat.le_div_iff_mul_le hpos,
    ← Nat.div_lt_iff_lt_mul hpos]
  omega

/-- A number within a half of a whole one is rounded to it. -/
theorem wholeUp_eq_of_abs_lt (hy : 0 ≤ y) {n : Nat} (h : |y - n| < 1 / 2) : wholeUp y = n := by
  rw [abs_lt] at h
  exact (wholeUp_eq_iff hy n).mpr ⟨by linarith, by linarith⟩

theorem abs_wholeUp_sub_le (hy : 0 ≤ y) : |(wholeUp y : ℚ) - y| ≤ 1 / 2 := by
  obtain ⟨hlow, hhigh⟩ := (wholeUp_eq_iff hy (wholeUp y)).mp rfl
  rw [abs_le]
  constructor <;> linarith

/-- A quotient need not be in lowest terms. -/
theorem roundHalfUp_eq_wholeUp (n : Nat) {d : Nat} (hd : 0 < d) :
    roundHalfUp n d = wholeUp ((n : ℚ) / d) := by
  have hpos : (0 : ℚ) < d := by exact_mod_cast hd
  have hdiv := Nat.div_add_mod (2 * n + d) (2 * d)
  have hmod := Nat.mod_lt (2 * n + d) (by omega : 0 < 2 * d)
  symm
  rw [wholeUp_eq_iff (by positivity), roundHalfUp]
  generalize (2 * n + d) / (2 * d) = q at *
  have hlow : (2 * d * q : ℚ) ≤ 2 * n + d := by
    exact_mod_cast (by omega : 2 * d * q ≤ 2 * n + d)
  have hhigh : (2 * n + d : ℚ) < 2 * d * q + 2 * d := by
    exact_mod_cast (by omega : 2 * n + d < 2 * d * q + 2 * d)
  rw [le_div_iff₀ hpos, div_lt_iff₀ hpos]
  constructor <;> linarith

/-- A quotient is rounded up from a rest of a half on. -/
theorem roundHalfUp_eq_div_add (n : Nat) {d : Nat} (hd : 0 < d) :
    roundHalfUp n d = n / d + if d ≤ 2 * (n % d) then 1 else 0 := by
  have hsplit : 2 * n + d = 2 * (n % d) + d + 2 * d * (n / d) := by
    have := Nat.div_add_mod n d
    rw [Nat.mul_assoc]
    omega
  have hrest := Nat.mod_lt n hd
  rw [roundHalfUp, hsplit, Nat.add_mul_div_left _ _ (by omega), Nat.add_comm, Nat.add_left_cancel_iff]
  split
  · rw [Nat.div_eq_iff (by omega)]
    omega
  · exact Nat.div_eq_of_lt (by omega)

@[simp] theorem wholeUp_natCast (n : Nat) : wholeUp n = n :=
  wholeUp_eq_of_abs_lt n.cast_nonneg (by simp)

theorem wholeUp_mono {z : ℚ} (hy : 0 ≤ y) (hyz : y ≤ z) : wholeUp y ≤ wholeUp z := by
  have hlow := ((wholeUp_eq_iff hy _).mp rfl).1
  have hhigh := ((wholeUp_eq_iff (hy.trans hyz) _).mp rfl).2
  have hlt : (wholeUp y : ℚ) < wholeUp z + 1 := by linarith
  exact Nat.lt_succ_iff.mp (by exact_mod_cast hlt)

end PriceArchive
