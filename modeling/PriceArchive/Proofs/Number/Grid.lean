import PriceArchive.Proofs.Number.Nearest

namespace PriceArchive

namespace Binary64

variable {x y g : ℚ}

/-- The power of two that is the unit in the last place of the doubles around a positive number. -/
structure HasUnit (x : ℚ) (e : ℤ) : Prop where
  min_le : -1074 ≤ e
  lt : x < (2 : ℚ) ^ (e + 53)
  le : (2 : ℚ) ^ (e + 52) ≤ x ∨ e = -1074

theorem hasUnit (hx : 0 < x) : HasUnit x (unitExponent x) := by
  obtain ⟨hlow, hhigh⟩ := binaryExponent_bounds hx
  have hunit := unitExponent_eq x
  refine ⟨by omega, hhigh.trans_le (zpow_le_zpow_right₀ one_le_two (by omega)), ?_⟩
  rcases eq_or_ne (unitExponent x) (-1074) with hmin | hne
  · exact .inr hmin
  · exact .inl ((zpow_le_zpow_right₀ one_le_two (by omega)).trans hlow)

/-- A number has one unit. -/
theorem HasUnit.unique {e f : ℤ} (he : HasUnit x e) (hf : HasUnit x f) : e = f := by
  have hle : ∀ {a b : ℤ}, HasUnit x a → HasUnit x b → b ≤ a := by
    intro a b ha hb
    rcases hb.le with hlow | hmin
    · have hlt := (zpow_lt_zpow_iff_right₀ one_lt_two).mp (hlow.trans_lt ha.lt)
      omega
    · have := ha.min_le
      omega
  exact le_antisymm (hle hf he) (hle he hf)

theorem HasUnit.unitExponent_eq {e : ℤ} (hx : 0 < x) (h : HasUnit x e) : unitExponent x = e :=
  (hasUnit hx).unique h

/-- Rounding gives a whole number of units. -/
theorem HasUnit.exists_nearest_eq {e : ℤ} (h : HasUnit x e) (hx : 0 < x) :
    ∃ n : ℕ, nearest x = n * (2 : ℚ) ^ e :=
  ⟨unitCount x, h.unitExponent_eq hx ▸ nearest_of_pos hx⟩

/-- A number that 53 significant bits can hold. -/
def Representable (x : ℚ) : Prop :=
  ∃ (m : ℕ) (e : ℤ), m ≤ 2 ^ 53 ∧ -1074 ≤ e ∧ x = m * (2 : ℚ) ^ e

theorem Representable.natCast {n : ℕ} (hn : n ≤ 2 ^ 53) : Representable n :=
  ⟨n, 0, hn, by norm_num, by simp⟩

theorem representable_two_zpow {k : ℤ} (hk : -1074 ≤ k) : Representable (2 ^ k) :=
  ⟨1, k, by norm_num, hk, by simp⟩

theorem representable_nearest (hx : 0 ≤ x) : Representable (nearest x) := by
  rcases hx.eq_or_lt with rfl | hx
  · rw [nearest_zero]
    exact_mod_cast Representable.natCast (Nat.zero_le (2 ^ 53))
  · exact ⟨unitCount x, unitExponent x, unitCount_le_two_pow hx, (hasUnit hx).min_le,
      nearest_of_pos hx⟩

/-- Scaling a distance by a unit. -/
theorem abs_mul_unit_sub (c x : ℚ) (e : ℤ) :
    |c * (2 : ℚ) ^ e - x| = |c - x * (2 : ℚ) ^ (-e)| * (2 : ℚ) ^ e := by
  have hunit : (0 : ℚ) < 2 ^ e := by positivity
  rw [← abs_of_pos hunit, ← abs_mul, abs_of_pos hunit, sub_mul, mul_assoc x, ← zpow_add₀ two_ne_zero,
    neg_add_cancel, zpow_zero, mul_one]

/-- No whole multiple of the unit is nearer. -/
theorem abs_nearest_sub_le_of_multiple (hx : 0 < x) (k : ℤ) :
    |nearest x - x| ≤ |k * (2 : ℚ) ^ unitExponent x - x| := by
  rw [nearest_of_pos hx, abs_mul_unit_sub, abs_mul_unit_sub, unitCount_eq]
  exact mul_le_mul_of_nonneg_right (abs_wholeEven_sub_le_abs_sub (by positivity) k) (by positivity)

/-- No number that a double can hold is nearer. -/
theorem abs_nearest_sub_le_abs_sub (hx : 0 ≤ x) (hg : Representable g) :
    |nearest x - x| ≤ |g - x| := by
  rcases hx.eq_or_lt with rfl | hx
  · simp [nearest_zero]
  obtain ⟨m, f, hm, hf, rfl⟩ := hg
  have hunit := hasUnit hx
  rcases le_or_gt (unitExponent x) f with hcoarse | hfine
  · -- A multiple of a larger power of two is one of the unit.
    have hmultiple : (m : ℚ) * 2 ^ f =
        ((m * 2 ^ (f - unitExponent x).toNat : ℤ) : ℚ) * 2 ^ unitExponent x := by
      push_cast
      rw [mul_assoc, ← zpow_natCast, ← zpow_add₀ two_ne_zero]
      congr 2
      omega
    rw [hmultiple]
    exact abs_nearest_sub_le_of_multiple hx _
  · -- Those of a smaller one end at the lowest number with this unit.
    have hlow : (2 : ℚ) ^ (unitExponent x + 52) ≤ x := hunit.le.resolve_right (by omega)
    have hlowest : (2 : ℚ) ^ (unitExponent x + 52) = ((2 ^ 52 : ℤ) : ℚ) * 2 ^ unitExponent x := by
      rw [zpow_add₀ two_ne_zero]
      push_cast
      ring
    have hm : (m : ℚ) ≤ 2 ^ 53 := by exact_mod_cast hm
    have hbelow : (m : ℚ) * 2 ^ f ≤ 2 ^ (unitExponent x + 52) :=
      calc (m : ℚ) * 2 ^ f ≤ 2 ^ 53 * 2 ^ (unitExponent x - 1) := by
            gcongr
            · exact one_le_two
            · omega
        _ = 2 ^ (unitExponent x + 52) := by
            rw [← zpow_natCast, ← zpow_add₀ two_ne_zero]
            congr 1
            push_cast
            ring
    calc |nearest x - x| ≤ |2 ^ (unitExponent x + 52) - x| := by
          rw [hlowest]
          exact abs_nearest_sub_le_of_multiple hx _
      _ = x - 2 ^ (unitExponent x + 52) := by rw [abs_sub_comm, abs_of_nonneg (by linarith)]
      _ ≤ x - m * 2 ^ f := by linarith
      _ ≤ |m * 2 ^ f - x| := by
          rw [abs_sub_comm]
          exact le_abs_self _

/-- A number that a double can hold is not rounded. -/
theorem Representable.nearest_eq (hx : 0 ≤ x) (h : Representable x) : nearest x = x := by
  have hle := abs_nearest_sub_le_abs_sub hx h
  rw [sub_self, abs_zero] at hle
  exact sub_eq_zero.mp (abs_nonpos_iff.mp hle)

/-- Rounding keeps order. -/
theorem nearest_mono (hx : 0 ≤ x) (hxy : x ≤ y) : nearest x ≤ nearest y := by
  by_contra hnot
  have hlt := not_le.mp hnot
  have hfirst := abs_nearest_sub_le_abs_sub hx (representable_nearest (hx.trans hxy))
  have hsecond := abs_nearest_sub_le_abs_sub (hx.trans hxy) (representable_nearest hx)
  -- Each number is nearer to the other's place only if both lie half way.
  have heq : x = y := by
    cases abs_cases (nearest x - x) <;> cases abs_cases (nearest y - x) <;>
      cases abs_cases (nearest y - y) <;> cases abs_cases (nearest x - y) <;> linarith
  rw [heq] at hlt
  exact lt_irrefl _ hlt

theorem nearest_le_of_le (hx : 0 ≤ x) (hg : Representable g) (hxg : x ≤ g) : nearest x ≤ g :=
  hg.nearest_eq (hx.trans hxg) ▸ nearest_mono hx hxg

theorem le_nearest_of_le (hg : 0 ≤ g) (hrep : Representable g) (hgx : g ≤ x) : g ≤ nearest x :=
  hrep.nearest_eq hg ▸ nearest_mono hg hgx

/-- From two to the 52nd on doubles are whole numbers. -/
theorem exists_natCast_nearest (hx : 2 ^ 52 ≤ x) : ∃ n : ℕ, nearest x = n := by
  have hpos : 0 < x := lt_of_lt_of_le (by norm_num) hx
  have hunit : 0 ≤ unitExponent x := by
    have hlt : (2 : ℚ) ^ ((52 : ℕ) : ℤ) < 2 ^ (unitExponent x + 53) := by
      rw [zpow_natCast]
      exact hx.trans_lt (hasUnit hpos).lt
    have := (zpow_lt_zpow_iff_right₀ one_lt_two).mp hlt
    push_cast at this
    omega
  refine ⟨unitCount x * 2 ^ (unitExponent x).toNat, ?_⟩
  rw [nearest_of_pos hpos]
  push_cast
  rw [← zpow_natCast, Int.toNat_of_nonneg hunit]

/-- From two to the 53rd on they are even. -/
theorem Representable.even_of_ge {n : ℕ} (h : Representable n) (hn : 2 ^ 53 ≤ n) : n % 2 = 0 := by
  obtain ⟨m, e, hm, -, heq⟩ := h
  rcases le_or_gt e 0 with hfine | hcoarse
  · have hle : (n : ℚ) ≤ m :=
      calc (n : ℚ) = m * 2 ^ e := heq
        _ ≤ m * 1 := by
          gcongr
          exact zpow_le_one_of_nonpos₀ one_le_two hfine
        _ = m := mul_one _
    have hle : n ≤ m := by exact_mod_cast hle
    omega
  · obtain ⟨k, rfl⟩ : ∃ k : ℕ, e = k + 1 := ⟨(e - 1).toNat, by omega⟩
    have hn : n = m * 2 ^ (k + 1) := by exact_mod_cast heq
    rw [hn, pow_succ, ← mul_assoc]
    exact Nat.mul_mod_left _ _

/-- A fraction that is added to such a number is lost. -/
theorem nearest_natCast_add {n : ℕ} (h : Representable n) (hn : 2 ^ 53 ≤ n) {f : ℚ} (hf : 0 ≤ f)
    (hlt : f < 1) : nearest (n + f) = n := by
  have hpos : (0 : ℚ) ≤ n + f := add_nonneg (Nat.cast_nonneg n) hf
  have hlarge : (2 : ℚ) ^ 53 ≤ n := by exact_mod_cast hn
  obtain ⟨k, hk⟩ := exists_natCast_nearest (x := n + f) (by linarith)
  have hrep := representable_nearest hpos
  have hge := le_nearest_of_le (Nat.cast_nonneg n) h (le_add_of_nonneg_right hf)
  have hclosest := abs_nearest_sub_le_abs_sub hpos h
  rw [hk] at hrep hge hclosest ⊢
  have hge : n ≤ k := by exact_mod_cast hge
  have hle : (k : ℚ) < n + 2 := by
    rw [sub_add_cancel_left, abs_neg, abs_of_nonneg hf, abs_le] at hclosest
    linarith
  have hle : k < n + 2 := by exact_mod_cast hle
  -- The number after an even one is odd.
  have heven := h.even_of_ge hn
  have heven' := hrep.even_of_ge (hn.trans hge)
  obtain rfl : k = n := by omega
  rfl

/-- Rounding goes no further than half a unit, the unit being that of the numbers below `2 ^ k`. -/
theorem abs_nearest_sub_le {k : ℤ} (hk : -1021 ≤ k) (hx : 0 ≤ x) (hle : x ≤ (2 : ℚ) ^ k) :
    |nearest x - x| ≤ (2 : ℚ) ^ (k - 54) := by
  rcases hle.eq_or_lt with rfl | hlt
  · rw [(representable_two_zpow (by omega)).nearest_eq hx, sub_self, abs_zero]
    positivity
  rcases hx.eq_or_lt with rfl | hx
  · rw [nearest_zero, sub_self, abs_zero]
    positivity
  have hexponent : unitExponent x ≤ k - 53 := by
    rcases (hasUnit hx).le with hlow | hmin
    · have := (zpow_lt_zpow_iff_right₀ one_lt_two).mp (hlow.trans_lt hlt)
      omega
    · omega
  rw [nearest_of_pos hx, abs_mul_unit_sub, unitCount_eq]
  calc |(wholeEven (x * 2 ^ (-unitExponent x)) : ℚ) - x * 2 ^ (-unitExponent x)| * 2 ^ unitExponent x
    _ ≤ 1 / 2 * 2 ^ (k - 53) := by
      gcongr
      · exact abs_wholeEven_sub_le (by positivity)
      · exact one_le_two
    _ = 2 ^ (k - 54) := by
      rw [one_div, ← zpow_neg_one, ← zpow_add₀ two_ne_zero]
      congr 1
      ring

end Binary64

end PriceArchive
