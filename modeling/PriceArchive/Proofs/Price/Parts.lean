import PriceArchive.Proofs.Price.ReadBack
import PriceArchive.Proofs.Price.Rescaling

namespace PriceArchive

open Binary64

namespace Price

variable {mantissa scale : ℕ} {a b d : Decimal}

section Sum

theorem narrowSum_nonneg (mantissa scale : ℕ) : 0 ≤ narrowSum mantissa scale := nearest_nonneg _

/-- Digits that are zero make no difference to the two parts. -/
theorem narrowSum_mul_tenPow (mantissa scale more : ℕ) :
    narrowSum (mantissa * tenPow more) (scale + more) = narrowSum mantissa scale := by
  have hpow : tenPow (scale + more) = tenPow scale * tenPow more := Nat.pow_add 10 scale more
  have hwhole : mantissa * tenPow more / tenPow (scale + more) = mantissa / tenPow scale := by
    rw [hpow, Nat.mul_div_mul_right _ _ (tenPow_pos more)]
  have hrest : mantissa * tenPow more % tenPow (scale + more) =
      mantissa % tenPow scale * tenPow more := by
    rw [hpow, Nat.mul_mod_mul_right]
  have hten : (10 : ℚ) ^ more ≠ 0 := by positivity
  rw [narrowSum, narrowSum, hwhole, hrest, Nat.cast_mul, cast_tenPow, pow_add,
    mul_div_mul_right _ _ hten]

/-- The fraction of a decimal stays below one. -/
theorem nearest_fraction_lt_one (mantissa : ℕ) (hscale : scale ≤ 4) :
    nearest (((mantissa % tenPow scale : ℕ) : ℚ) / 10 ^ scale) < 1 := by
  have hten : (0 : ℚ) < 10 ^ scale := by positivity
  have hrest : ((mantissa % tenPow scale : ℕ) : ℚ) + 1 ≤ 10 ^ scale := by
    rw [← cast_tenPow]
    exact_mod_cast Nat.mod_lt mantissa (tenPow_pos scale)
  have hpow : (10 : ℚ) ^ scale ≤ 10000 := by
    rw [← cast_tenPow]
    exact_mod_cast tenPow_le hscale
  have hle : ((mantissa % tenPow scale : ℕ) : ℚ) / 10 ^ scale ≤ 16383 / 16384 := by
    rw [div_le_iff₀ hten]
    linarith
  have hrep : Representable (16383 / 16384 : ℚ) := ⟨16383, -14, by norm_num, by norm_num, by norm_num⟩
  exact (nearest_le_of_le (by positivity) hrep hle).trans_lt (by norm_num)

theorem narrowSum_of_whole (h : mantissa % tenPow scale = 0) :
    narrowSum mantissa scale = nearest (mantissa / tenPow scale : ℕ) := by
  rw [narrowSum, h, Nat.cast_zero, zero_div, nearest_zero, add_zero]
  exact (representable_nearest (Nat.cast_nonneg _)).nearest_eq (nearest_nonneg _)

/-- From two to the 53rd on the fraction of a decimal is lost. -/
theorem narrowSum_of_ge (hscale : scale ≤ 4) (h : 2 ^ 53 ≤ mantissa / tenPow scale) :
    narrowSum mantissa scale = nearest (mantissa / tenPow scale : ℕ) := by
  have hlarge : (2 : ℚ) ^ 53 ≤ (mantissa / tenPow scale : ℕ) := by exact_mod_cast h
  have hrep := representable_nearest (x := (mantissa / tenPow scale : ℕ)) (Nat.cast_nonneg _)
  have hge := le_nearest_of_le (by positivity) (representable_two_pow 53) hlarge
  obtain ⟨n, hn⟩ := exists_natCast_nearest (x := (mantissa / tenPow scale : ℕ)) (by linarith)
  rw [narrowSum, hn]
  rw [hn] at hrep hge
  exact nearest_natCast_add hrep (by exact_mod_cast hge) (nearest_nonneg _)
    (nearest_fraction_lt_one mantissa hscale)

/-- The sum of the parts keeps the order of decimals of one scale. -/
theorem narrowSum_mono {n m : ℕ} (hscale : scale ≤ 4) (h : n ≤ m) :
    narrowSum n scale ≤ narrowSum m scale := by
  have hfraction := nearest_nonneg (((m % tenPow scale : ℕ) : ℚ) / 10 ^ scale)
  rcases (Nat.div_le_div_right (c := tenPow scale) h).eq_or_lt with hsame | hless
  · -- The whole parts are the same, so the fractions are in order.
    have hrest : n % tenPow scale ≤ m % tenPow scale := by
      have hn := Nat.div_add_mod n (tenPow scale)
      have hm := Nat.div_add_mod m (tenPow scale)
      rw [hsame] at hn
      omega
    have hrest := nearest_mono (by positivity)
      (by gcongr : ((n % tenPow scale : ℕ) : ℚ) / 10 ^ scale ≤ (m % tenPow scale : ℕ) / 10 ^ scale)
    rw [narrowSum, narrowSum, hsame]
    exact nearest_mono (add_nonneg (nearest_nonneg _) (nearest_nonneg _)) (by linarith)
  -- The fraction of the smaller one does not reach the next whole number.
  have habove : nearest ((m / tenPow scale : ℕ) : ℚ) ≤ narrowSum m scale := by
    refine le_nearest_of_le (nearest_nonneg _) (representable_nearest (Nat.cast_nonneg _)) ?_
    linarith
  refine le_trans ?_ habove
  rcases Nat.lt_or_ge (n / tenPow scale) (2 ^ 53) with hsmall | hlarge
  · have hwhole : nearest ((n / tenPow scale : ℕ) : ℚ) = (n / tenPow scale : ℕ) :=
      (Representable.natCast hsmall.le).nearest_eq (Nat.cast_nonneg _)
    have hone := nearest_fraction_le_one n scale
    have hnext : ((n / tenPow scale : ℕ) : ℚ) + 1 ≤ (m / tenPow scale : ℕ) := by exact_mod_cast hless
    rw [narrowSum, hwhole]
    exact nearest_mono (add_nonneg (Nat.cast_nonneg _) (nearest_nonneg _)) (by linarith)
  · rw [narrowSum_of_ge hscale hlarge]
    exact nearest_mono (Nat.cast_nonneg _) (by exact_mod_cast hless.le)

/-- A whole number that was narrowed is brought to no fraction digits as it is. -/
theorem rescale_nearest_natCast (n : ℕ) : rescale (nearest n) 0 = nearest n := by
  have hwhole : ∃ k : ℕ, nearest (n : ℚ) = k := by
    rcases le_or_gt (2 ^ 52) n with hlarge | hsmall
    · exact exists_natCast_nearest (by exact_mod_cast hlarge)
    · exact ⟨n, (Representable.natCast (by omega)).nearest_eq (Nat.cast_nonneg n)⟩
  obtain ⟨k, hk⟩ := hwhole
  have hfixed : nearest (k : ℚ) = k :=
    hk ▸ (representable_nearest (Nat.cast_nonneg n)).nearest_eq (nearest_nonneg _)
  rw [rescale, hk, pow_zero, mul_one, div_one, hfixed, wholeUp_natCast, hfixed]

end Sum

/-- The size of a price in its last place, rounded: how many ten-thousandths it is. -/
def ticks (d : Decimal) : ℕ := wholeUp (|d.value| * 10 ^ places)

theorem ticks_mono (h : |a.value| ≤ |b.value|) : ticks a ≤ ticks b :=
  wholeUp_mono (by positivity) (by gcongr)

theorem ticks_le {n : ℕ} (h : |d.value| ≤ n) : ticks d ≤ n * 10 ^ places := by
  have hle := wholeUp_mono (y := |d.value| * 10 ^ places) (z := (n * 10 ^ places : ℕ)) (by positivity)
    (by rw [Nat.cast_mul, Nat.cast_pow, Nat.cast_ofNat]; gcongr)
  rwa [wholeUp_natCast] at hle

theorem le_ticks {n : ℕ} (h : (n : ℚ) ≤ |d.value|) : n * 10 ^ places ≤ ticks d := by
  have hle := wholeUp_mono (y := (n * 10 ^ places : ℕ)) (z := |d.value| * 10 ^ places)
    (Nat.cast_nonneg _) (by rw [Nat.cast_mul, Nat.cast_pow, Nat.cast_ofNat]; gcongr)
  rwa [wholeUp_natCast] at hle

theorem ticks_of_value_eq_zero (h : d.value = 0) : ticks d = 0 := by
  have hle := ticks_le (d := d) (n := 0) (by rw [h, abs_zero, Nat.cast_zero])
  omega

/-- The rounded price has so many ten-thousandths. -/
theorem mantissa_round_mul (d : Decimal) :
    (round d).mantissa * tenPow (4 - (round d).scale) = ticks d := by
  have hten (k : ℕ) : (10 : ℚ) ^ k ≠ 0 := by positivity
  rw [ticks, Decimal.abs_value, places]
  rcases Nat.lt_or_ge 4 d.scale with hlong | hshort
  · have hround : round d = .ofParts d.negative (roundHalfUp d.mantissa (tenPow (d.scale - 4))) 4
        (Nat.lt_of_le_of_lt (roundHalfUp_le (tenPow_pos _)) d.mantissa_lt) (by decide) := by
      rw [round, Decimal.roundTo, dif_neg (by rw [places]; omega)]
      rfl
    have hpow : (10 : ℚ) ^ d.scale = 10 ^ (d.scale - 4) * 10 ^ 4 := by
      rw [← pow_add, Nat.sub_add_cancel hlong.le]
    rw [hround, hpow, div_mul_eq_mul_div, mul_div_mul_right _ _ (hten 4), ← cast_tenPow,
      ← roundHalfUp_eq_wholeUp _ (tenPow_pos _)]
    exact Nat.mul_one _
  · have hpow : (10 : ℚ) ^ 4 = 10 ^ (4 - d.scale) * 10 ^ d.scale := by
      rw [← pow_add, Nat.sub_add_cancel hshort]
    have hcount : (d.mantissa : ℚ) / 10 ^ d.scale * 10 ^ 4 =
        ((d.mantissa * tenPow (4 - d.scale) : ℕ) : ℚ) := by
      rw [hpow, ← mul_assoc, mul_right_comm, div_mul_cancel₀ _ (hten _), Nat.cast_mul, cast_tenPow]
    rw [round_of_scale_le hshort, hcount, wholeUp_natCast]

theorem mantissa_round_div (d : Decimal) :
    ((round d).mantissa : ℚ) / 10 ^ (round d).scale = ticks d / 10 ^ 4 := by
  have hpow : (10 : ℚ) ^ 4 = 10 ^ (round d).scale * 10 ^ (4 - (round d).scale) := by
    rw [← pow_add, Nat.add_sub_cancel' (scale_round_le d)]
  have hten : (10 : ℚ) ^ (4 - (round d).scale) ≠ 0 := by positivity
  rw [← mantissa_round_mul, Nat.cast_mul, cast_tenPow, hpow, mul_div_mul_right _ _ hten]

/-- The sum of the narrowed parts of a price. -/
def parts (d : Decimal) : ℚ := narrowSum (ticks d) places

theorem parts_nonneg (d : Decimal) : 0 ≤ parts d := narrowSum_nonneg _ _

/-- It keeps the order of prices. -/
theorem parts_mono (h : |a.value| ≤ |b.value|) : parts a ≤ parts b :=
  narrowSum_mono (by decide) (ticks_mono h)

/-- It depends on the number alone that a price denotes. -/
theorem parts_eq (d : Decimal) : narrowSum (round d).mantissa (round d).scale = parts d := by
  rw [parts, ← mantissa_round_mul, places,
    ← narrowSum_mul_tenPow (round d).mantissa (round d).scale (4 - (round d).scale),
    Nat.add_sub_cancel' (scale_round_le d)]

/-- With how many fraction digits a price is narrowed: those of its scale, unless it is whole. -/
def fractionDigits (d : Decimal) : ℕ :=
  if (round d).mantissa % tenPow (round d).scale = 0 then 0 else (round d).scale

/-- What is stored for a price is the sum of its parts, brought to its fraction digits. -/
theorem storedSize_eq_rescale (d : Decimal) :
    storedSize d = rescale (parts d) (fractionDigits d) := by
  rw [storedSize, fractionDigits]
  split
  · rename_i hwhole
    have hdiv : ((round d).mantissa : ℚ) / 10 ^ (round d).scale =
        ((round d).mantissa / tenPow (round d).scale : ℕ) := by
      rw [split_at_point, hwhole, Nat.cast_zero, zero_div, add_zero]
    rw [narrowMagnitude_of_whole (scale_round_le d) hwhole, ← parts_eq, narrowSum_of_whole hwhole,
      rescale_nearest_natCast, hdiv]
  · rename_i hfraction
    rw [narrowMagnitude_of_fraction (scale_round_le d) hfraction, parts_eq]

end Price

end PriceArchive
