import PriceArchive.Binary64.Shortest
import PriceArchive.Proofs.Number.Grid

namespace PriceArchive

namespace Binary64

/-- A significand and an exponent as a positive double has them: the significand fills 53 bits unless
the exponent is the smallest. -/
structure Canonical (m : ℕ) (e : ℤ) : Prop where
  pos : 0 < m
  lt : m < 2 ^ 53
  min_le : -1074 ≤ e
  full : 2 ^ 52 ≤ m ∨ e = -1074

theorem Canonical.size_pos {m : ℕ} {e : ℤ} (h : Canonical m e) : 0 < m * (2 : ℚ) ^ e := by
  have hm : (0 : ℚ) < m := by exact_mod_cast h.pos
  positivity

/-- How far the neighbourhood reaches below a significand, in units. -/
def lowGap (m : ℕ) (e : ℤ) : ℚ := if m = 2 ^ 52 ∧ -1074 < e then 1 / 4 else 1 / 2

theorem lowGap_le (m : ℕ) (e : ℤ) : lowGap m e ≤ 1 / 2 := by
  unfold lowGap
  split <;> norm_num

theorem lowGap_pos (m : ℕ) (e : ℤ) : 0 < lowGap m e := by
  unfold lowGap
  split <;> norm_num

theorem Neighbourhood.contains_iff (n : Neighbourhood) (x : ℚ) :
    n.contains x = true ↔
      (n.low < x ∨ n.closed = true ∧ n.low = x) ∧ (x < n.high ∨ n.closed = true ∧ x = n.high) := by
  unfold contains
  cases n.closed with
  | true => simp [le_iff_lt_or_eq]
  | false => simp

variable {m : ℕ} {e : ℤ} {t x y z : ℚ}

/-- A neighbourhood has no gaps. -/
theorem Neighbourhood.contains_of_between {n : Neighbourhood} {x y z : ℚ}
    (hx : n.contains x = true) (hz : n.contains z = true) (hxy : x ≤ y) (hyz : y ≤ z) :
    n.contains y = true := by
  rw [contains_iff] at hx hz ⊢
  constructor
  · rcases hx.1 with hlow | ⟨hclosed, hlow⟩
    · exact .inl (hlow.trans_le hxy)
    · exact (hlow ▸ hxy).lt_or_eq.imp_right fun heq => ⟨hclosed, heq⟩
  · rcases hz.2 with hhigh | ⟨hclosed, hhigh⟩
    · exact .inl (hyz.trans_lt hhigh)
    · exact (hhigh ▸ hyz).lt_or_eq.imp_right fun heq => ⟨hclosed, heq⟩

theorem neighbourhood_low (m : ℕ) (e : ℤ) :
    (neighbourhood m e).low = (m - lowGap m e) * (2 : ℚ) ^ e := by
  have hhalf : (2 : ℚ) ^ (e - 1) = 1 / 2 * 2 ^ e := by
    rw [zpow_sub_one₀ two_ne_zero]
    ring
  have hquarter : (2 : ℚ) ^ (e - 2) = 1 / 4 * 2 ^ e := by
    rw [zpow_sub₀ two_ne_zero]
    norm_num
    ring
  have hlowest : (m = fractionLimit && decide (minExponent < e)) = true ↔
      m = 2 ^ 52 ∧ -1074 < e := by
    rw [Bool.and_eq_true, decide_eq_true_iff, decide_eq_true_iff]
    rfl
  unfold neighbourhood lowGap
  simp only [twoPower_eq_zpow, hlowest, hhalf, hquarter]
  split <;> ring

theorem neighbourhood_high (m : ℕ) (e : ℤ) :
    (neighbourhood m e).high = (m + 1 / 2) * (2 : ℚ) ^ e := by
  unfold neighbourhood
  simp only [twoPower_eq_zpow]
  rw [zpow_sub_one₀ two_ne_zero]
  ring

/-- The neighbourhood in units in the last place. -/
theorem contains_mul_unit_iff (m : ℕ) (e : ℤ) (t : ℚ) :
    (neighbourhood m e).contains (t * (2 : ℚ) ^ e) = true ↔
      (m - lowGap m e < t ∨ m % 2 = 0 ∧ m - lowGap m e = t) ∧
        (t < m + 1 / 2 ∨ m % 2 = 0 ∧ t = m + 1 / 2) := by
  have hunit : (0 : ℚ) < 2 ^ e := by positivity
  have hclosed : (neighbourhood m e).closed = true ↔ m % 2 = 0 := decide_eq_true_iff
  rw [Neighbourhood.contains_iff, hclosed, neighbourhood_low, neighbourhood_high,
    mul_lt_mul_iff_left₀ hunit, mul_lt_mul_iff_left₀ hunit, mul_left_inj' hunit.ne',
    mul_left_inj' hunit.ne']

theorem exists_eq_mul_unit (y : ℚ) (e : ℤ) : ∃ t, y = t * (2 : ℚ) ^ e :=
  ⟨y * 2 ^ (-e), by rw [mul_assoc, ← zpow_add₀ two_ne_zero, neg_add_cancel, zpow_zero, mul_one]⟩

theorem mul_unit_mul_neg (t : ℚ) (e : ℤ) : t * (2 : ℚ) ^ e * 2 ^ (-e) = t := by
  rw [mul_assoc, ← zpow_add₀ two_ne_zero, add_neg_cancel, zpow_zero, mul_one]

theorem contains_self (m : ℕ) (e : ℤ) : (neighbourhood m e).contains (m * (2 : ℚ) ^ e) = true := by
  have hgap := lowGap_pos m e
  exact (contains_mul_unit_iff m e m).mpr ⟨.inl (by linarith), .inl (by linarith)⟩

/-- The numbers of a neighbourhood are near its double. -/
theorem bounds_of_contains (h : (neighbourhood m e).contains y = true) :
    (m - 1 / 2) * (2 : ℚ) ^ e ≤ y ∧ y ≤ (m + 1 / 2) * (2 : ℚ) ^ e := by
  obtain ⟨t, rfl⟩ := exists_eq_mul_unit y e
  rw [contains_mul_unit_iff] at h
  have hgap := lowGap_le m e
  constructor
  · gcongr
    rcases h.1 with hlow | ⟨-, hlow⟩ <;> linarith
  · gcongr
    rcases h.2 with hhigh | ⟨-, hhigh⟩ <;> linarith

theorem abs_sub_le_of_contains (hy : (neighbourhood m e).contains y = true)
    (hz : (neighbourhood m e).contains z = true) : |y - z| ≤ (2 : ℚ) ^ e := by
  obtain ⟨hylow, hyhigh⟩ := bounds_of_contains hy
  obtain ⟨hzlow, hzhigh⟩ := bounds_of_contains hz
  rw [abs_le]
  constructor <;> linarith

theorem pos_of_contains (hm : 0 < m) (h : (neighbourhood m e).contains y = true) : 0 < y := by
  have hm : (1 : ℚ) ≤ m := by exact_mod_cast hm
  have hlow : 0 < (m - 1 / 2) * (2 : ℚ) ^ e := mul_pos (by linarith) (by positivity)
  exact hlow.trans_le (bounds_of_contains h).1

/-- A number whose distance is small beside a double lies in its neighbourhood. -/
theorem contains_of_near (hm : m < 2 ^ 53)
    (h : |y - m * (2 : ℚ) ^ e| < m * (2 : ℚ) ^ e / 2 ^ 54) :
    (neighbourhood m e).contains y = true := by
  have hunit : (0 : ℚ) < 2 ^ e := by positivity
  have hm : (m : ℚ) < 2 ^ 53 := by exact_mod_cast hm
  obtain ⟨t, rfl⟩ := exists_eq_mul_unit y e
  rw [← sub_mul, abs_mul, abs_of_pos hunit, mul_div_right_comm, mul_lt_mul_iff_left₀ hunit,
    abs_lt] at h
  have hgap : (m : ℚ) / 2 ^ 54 ≤ lowGap m e := by
    unfold lowGap
    split
    · rename_i hlowest
      rw [hlowest.1]
      norm_num
    · linarith
  rw [contains_mul_unit_iff]
  exact ⟨.inl (by linarith), .inl (by linarith)⟩

/-- On its grid a number is rounded to the significand that is picked. -/
theorem HasUnit.nearest_eq_iff (ht : 0 < t) (h : HasUnit (t * (2 : ℚ) ^ e) e) :
    nearest (t * (2 : ℚ) ^ e) = m * (2 : ℚ) ^ e ↔ PickedEven t m := by
  have hunit : (0 : ℚ) < 2 ^ e := by positivity
  rw [nearest_of_pos (by positivity), h.unitExponent_eq (by positivity), unitCount_eq,
    h.unitExponent_eq (by positivity), mul_left_inj' hunit.ne', mul_unit_mul_neg, Nat.cast_inj,
    wholeEven_eq_iff ht.le]

theorem hasUnit_mul_unit_iff :
    HasUnit (t * (2 : ℚ) ^ e) e ↔ -1074 ≤ e ∧ t < 2 ^ 53 ∧ (2 ^ 52 ≤ t ∨ e = -1074) := by
  have hunit : (0 : ℚ) < 2 ^ e := by positivity
  have hpow (k : ℕ) : (2 : ℚ) ^ (e + k) = 2 ^ k * 2 ^ e := by
    rw [zpow_add₀ two_ne_zero, zpow_natCast, mul_comm]
  have hupper := hpow 53
  have hlower := hpow 52
  push_cast at hupper hlower
  constructor
  · rintro ⟨hmin, hlt, hle⟩
    rw [hupper, mul_lt_mul_iff_left₀ hunit] at hlt
    rw [hlower, mul_le_mul_iff_left₀ hunit] at hle
    exact ⟨hmin, hlt, hle⟩
  · rintro ⟨hmin, hlt, hle⟩
    refine ⟨hmin, ?_, ?_⟩
    · rwa [hupper, mul_lt_mul_iff_left₀ hunit]
    · rwa [hlower, mul_le_mul_iff_left₀ hunit]

/-- Unless its double is the lowest one of a binade, a neighbourhood is what the significand is picked
for. -/
theorem contains_iff_picked_of_gap (h : lowGap m e = 1 / 2) :
    (neighbourhood m e).contains (t * (2 : ℚ) ^ e) = true ↔ PickedEven t m := by
  rw [contains_mul_unit_iff, PickedEven, h, abs_lt, abs_eq (by norm_num)]
  constructor
  · rintro ⟨hlow | ⟨hpar, hlow⟩, hhigh | ⟨hpar', hhigh⟩⟩
    · exact .inl ⟨by linarith, by linarith⟩
    · exact .inr ⟨.inr (by linarith), hpar'⟩
    · exact .inr ⟨.inl (by linarith), hpar⟩
    · exact .inr ⟨.inl (by linarith), hpar⟩
  · rintro (⟨hlow, hhigh⟩ | ⟨heq | heq, hpar⟩)
    · exact ⟨.inl (by linarith), .inl (by linarith)⟩
    · exact ⟨.inr ⟨hpar, by linarith⟩, .inl (by linarith)⟩
    · exact ⟨.inl (by linarith), .inr ⟨hpar, by linarith⟩⟩

/-- On the grid of a double this holds of the lowest one too. -/
theorem contains_iff_picked (ht : 2 ^ 52 ≤ t ∨ e = -1074) :
    (neighbourhood m e).contains (t * (2 : ℚ) ^ e) = true ↔ PickedEven t m := by
  by_cases hlowest : m = 2 ^ 52 ∧ -1074 < e
  · have hmt : (m : ℚ) ≤ t := by
      rw [hlowest.1]
      push_cast
      exact ht.resolve_right (by omega)
    rw [contains_mul_unit_iff, PickedEven, lowGap, if_pos hlowest, abs_sub_comm,
      abs_of_nonneg (by linarith)]
    constructor
    · rintro ⟨-, hlt | ⟨hpar, rfl⟩⟩
      · exact .inl (by linarith)
      · exact .inr ⟨by ring, hpar⟩
    · rintro (hlt | ⟨heq, hpar⟩)
      · exact ⟨.inl (by linarith), .inl (by linarith)⟩
      · exact ⟨.inl (by linarith), .inr ⟨hpar, by linarith⟩⟩
  · exact contains_iff_picked_of_gap (if_neg hlowest)

/-- Such a neighbourhood is symmetric: with a number it has all that are as near. -/
theorem contains_of_abs_sub_le (hgap : lowGap m e = 1 / 2)
    (hy : (neighbourhood m e).contains y = true)
    (hle : |z - m * (2 : ℚ) ^ e| ≤ |y - m * (2 : ℚ) ^ e|) :
    (neighbourhood m e).contains z = true := by
  have hunit : (0 : ℚ) < 2 ^ e := by positivity
  obtain ⟨t, rfl⟩ := exists_eq_mul_unit y e
  obtain ⟨r, rfl⟩ := exists_eq_mul_unit z e
  rw [contains_iff_picked_of_gap hgap, PickedEven, abs_sub_comm] at hy ⊢
  rw [← sub_mul, ← sub_mul, abs_mul, abs_mul, mul_le_mul_iff_left₀ (abs_pos.mpr hunit.ne')] at hle
  rcases hy with hlt | ⟨heq, hpar⟩
  · exact .inl (hle.trans_lt hlt)
  · exact (hle.trans_eq heq).lt_or_eq.imp_right fun h => ⟨h, hpar⟩

theorem Canonical.cast_le (h : Canonical m e) : (m : ℚ) ≤ 2 ^ 53 - 1 := by
  have hle : m + 1 ≤ 2 ^ 53 := h.lt
  have : ((m + 1 : ℕ) : ℚ) ≤ 2 ^ 53 := by exact_mod_cast hle
  push_cast at this
  linarith

/-- Rounding does not pass a whole number of units. -/
theorem nearest_mul_unit_le {k : ℕ} (hk : k ≤ 2 ^ 53) (he : -1074 ≤ e) (ht : 0 ≤ t) (htk : t ≤ k) :
    nearest (t * (2 : ℚ) ^ e) ≤ k * (2 : ℚ) ^ e :=
  nearest_le_of_le (by positivity) ⟨k, e, hk, he, rfl⟩ (by gcongr)

theorem le_nearest_mul_unit {k : ℕ} (hk : k ≤ 2 ^ 53) (he : -1074 ≤ e) (htk : k ≤ t) :
    k * (2 : ℚ) ^ e ≤ nearest (t * (2 : ℚ) ^ e) :=
  le_nearest_of_le (by positivity) ⟨k, e, hk, he, rfl⟩ (by gcongr)

/-- Below a power of two the unit is half as large, so only a quarter of the unit above goes up. -/
theorem nearest_eq_lowest_iff (he : -1074 < e) (ht : 0 < t) (hlt : t < 2 ^ 52) :
    nearest (t * (2 : ℚ) ^ e) = (2 ^ 52 : ℕ) * (2 : ℚ) ^ e ↔ 2 ^ 52 - 1 / 4 ≤ t := by
  have hunit : (0 : ℚ) < 2 ^ e := by positivity
  rcases le_or_gt ((2 : ℚ) ^ 51) t with hbinade | hsmall
  · have hhalf (c : ℚ) : c * (2 : ℚ) ^ e = 2 * c * 2 ^ (e - 1) := by
      rw [zpow_sub_one₀ two_ne_zero]
      ring
    have hgrid : HasUnit (2 * t * (2 : ℚ) ^ (e - 1)) (e - 1) :=
      hasUnit_mul_unit_iff.mpr ⟨by omega, by linarith, .inl (by linarith)⟩
    have hdouble : 2 * ((2 ^ 52 : ℕ) : ℚ) = ((2 ^ 53 : ℕ) : ℚ) := by norm_num
    have habove : 0 < ((2 ^ 53 : ℕ) : ℚ) - 2 * t := by
      push_cast
      linarith
    rw [hhalf t, hhalf, hdouble, hgrid.nearest_eq_iff (by linarith), PickedEven, abs_of_pos habove,
      ← le_iff_lt_or_eq.trans (or_congr_right (and_iff_left (by norm_num)).symm)]
    push_cast
    constructor <;> intro h <;> linarith
  · have hle := nearest_mul_unit_le (k := 2 ^ 51) (by norm_num) he.le ht.le (by
      push_cast
      exact hsmall.le)
    have hlt : ((2 ^ 51 : ℕ) : ℚ) * (2 : ℚ) ^ e < (2 ^ 52 : ℕ) * 2 ^ e := by
      gcongr <;> norm_num
    exact iff_of_false (by linarith) (by linarith)

/-- A number rounds to a double exactly when it lies in the neighbourhood of the double. -/
theorem nearest_eq_iff_contains (h : Canonical m e) (hy : 0 < y) :
    nearest y = m * (2 : ℚ) ^ e ↔ (neighbourhood m e).contains y = true := by
  have hunit : (0 : ℚ) < 2 ^ e := by positivity
  have hm := h.cast_le
  have hmin_le := h.min_le
  obtain ⟨t, rfl⟩ := exists_eq_mul_unit y e
  have ht : 0 < t := pos_of_mul_pos_left hy hunit.le
  by_cases hbelow : t < m ∧ m = 2 ^ 52 ∧ -1074 < e
  · obtain ⟨htm, rfl, he⟩ := hbelow
    push_cast at htm
    rw [nearest_eq_lowest_iff he ht htm, contains_mul_unit_iff, lowGap, if_pos ⟨rfl, he⟩]
    push_cast
    simp only [true_and, ← le_iff_lt_or_eq]
    exact ⟨fun hle => ⟨hle, by linarith⟩, And.left⟩
  rcases lt_or_ge t (2 ^ 53) with hupper | hbeyond
  · by_cases hlower : 2 ^ 52 ≤ t ∨ e = -1074
    · have hgrid := hasUnit_mul_unit_iff.mpr ⟨hmin_le, hupper, hlower⟩
      rw [hgrid.nearest_eq_iff ht, contains_iff_picked hlower]
    · -- The number lies in a lower binade, and the double is not the lowest one of its own.
      obtain ⟨hlt, hmin⟩ := not_or.mp hlower
      have hfull := h.full.resolve_right hmin
      have hcast : (2 : ℚ) ^ 52 ≤ m := by exact_mod_cast hfull
      have hne : m ≠ 2 ^ 52 := fun heq => hbelow ⟨by linarith, heq, by omega⟩
      have habove : (2 : ℚ) ^ 52 + 1 ≤ m := by
        exact_mod_cast (by omega : 2 ^ 52 + 1 ≤ m)
      have hle := nearest_mul_unit_le (k := 2 ^ 52) (by norm_num) hmin_le ht.le (by
        push_cast
        linarith)
      have hmul : ((2 ^ 52 : ℕ) : ℚ) * (2 : ℚ) ^ e < m * 2 ^ e := by
        gcongr
        omega
      refine iff_of_false (by linarith) fun hmem => ?_
      rw [contains_mul_unit_iff] at hmem
      have hgap := lowGap_le m e
      rcases hmem.1 with hlow | ⟨-, hlow⟩ <;> linarith
  · have hge := le_nearest_mul_unit (k := 2 ^ 53) (t := t) le_rfl hmin_le (by
      push_cast
      exact hbeyond)
    have hmul : (m : ℚ) * 2 ^ e < ((2 ^ 53 : ℕ) : ℚ) * (2 : ℚ) ^ e := by
      gcongr
      exact h.lt
    refine iff_of_false (by linarith) fun hmem => ?_
    rw [contains_mul_unit_iff] at hmem
    rcases hmem.2 with hhigh | ⟨-, hhigh⟩ <;> linarith

end Binary64

end PriceArchive
