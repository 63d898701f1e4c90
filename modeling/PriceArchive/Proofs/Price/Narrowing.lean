import PriceArchive.Price
import PriceArchive.Proofs.Number.Grid
import Mathlib.Data.Nat.Cast.Field
import Mathlib.Tactic.NormNum

namespace PriceArchive

theorem cast_tenPow (k : ℕ) : ((tenPow k : ℕ) : ℚ) = 10 ^ k := Nat.cast_pow 10 k

theorem tenPow_le {k : ℕ} (hk : k ≤ 4) : tenPow k ≤ 10000 := Nat.pow_le_pow_right (by decide) hk

namespace Price

open Binary64

variable {mantissa scale : ℕ} {x y : ℚ}

/-- A number brought to a scale: the double nearest to the decimal that is next to it. -/
def rescale (x : ℚ) (scale : ℕ) : ℚ := nearest (wholeUp (nearest (x * 10 ^ scale)) / 10 ^ scale)

/-- The two parts of a decimal, narrowed on their own and added. -/
def narrowSum (mantissa scale : ℕ) : ℚ :=
  nearest (nearest (mantissa / tenPow scale : ℕ) +
    nearest ((mantissa % tenPow scale : ℕ) / 10 ^ scale))

theorem nearest_tenPow (hscale : scale ≤ 4) : nearest (tenPow scale : ℕ) = 10 ^ scale := by
  have hle := tenPow_le hscale
  rw [(Representable.natCast (by omega)).nearest_eq (Nat.cast_nonneg _), cast_tenPow]

/-- The part of a fraction that is not zero stays so. -/
theorem nearest_fraction_pos {r : ℕ} (hr : 0 < r) (hscale : scale ≤ 4) :
    0 < nearest ((r : ℚ) / 10 ^ scale) := by
  have hpow : (10 : ℚ) ^ scale ≤ 10000 := by
    rw [← cast_tenPow]
    exact_mod_cast tenPow_le hscale
  have hr : (1 : ℚ) ≤ r := by exact_mod_cast hr
  have hlow : (2 : ℚ) ^ (-14 : ℤ) ≤ r / 10 ^ scale := by
    rw [le_div_iff₀ (by positivity)]
    calc (2 : ℚ) ^ (-14 : ℤ) * 10 ^ scale ≤ 2 ^ (-14 : ℤ) * 10000 := by gcongr
      _ ≤ 1 := by norm_num
      _ ≤ r := hr
  have hnearest := le_nearest_of_le (by positivity) (representable_two_zpow (by norm_num)) hlow
  exact lt_of_lt_of_le (by positivity) hnearest

/-- A decimal, split at the point. -/
theorem split_at_point (mantissa scale : ℕ) :
    (mantissa : ℚ) / 10 ^ scale =
      (mantissa / tenPow scale : ℕ) + ((mantissa % tenPow scale : ℕ) : ℚ) / 10 ^ scale := by
  have hten : (10 : ℚ) ^ scale ≠ 0 := by positivity
  have hsplit : (mantissa : ℚ) =
      10 ^ scale * (mantissa / tenPow scale : ℕ) + (mantissa % tenPow scale : ℕ) := by
    rw [← cast_tenPow]
    exact_mod_cast (Nat.div_add_mod mantissa (tenPow scale)).symm
  nth_rewrite 1 [hsplit]
  rw [add_div, mul_div_cancel_left₀ _ hten]

/-- How many parts of its scale a decimal has once it is narrowed. -/
def narrowCount (mantissa scale : ℕ) : ℕ :=
  if mantissa % tenPow scale = 0 then mantissa
  else wholeUp (nearest (narrowSum mantissa scale * 10 ^ scale))

/-- A decimal narrows to the double nearest to a decimal of its scale. -/
theorem narrowMagnitude_eq (mantissa : ℕ) (hscale : scale ≤ 4) :
    narrowMagnitude mantissa scale = nearest (narrowCount mantissa scale / 10 ^ scale) := by
  rw [narrowMagnitude, narrowCount]
  split
  · rename_i hzero
    subst hzero
    rw [if_pos (show mantissa % tenPow 0 = 0 from Nat.mod_one _), pow_zero, div_one]
  · have hle := tenPow_le hscale
    have hlt := Nat.mod_lt mantissa (tenPow_pos scale)
    have hrest : nearest ((mantissa % tenPow scale : ℕ) : ℚ) = (mantissa % tenPow scale : ℕ) :=
      (Representable.natCast (by omega)).nearest_eq (Nat.cast_nonneg _)
    dsimp only
    rw [nearest_tenPow hscale, hrest]
    rcases Nat.eq_zero_or_pos (mantissa % tenPow scale) with hzero | hpos
    · rw [if_pos hzero, if_pos (by rw [hzero, Nat.cast_zero, zero_div, nearest_zero]),
        split_at_point, hzero, Nat.cast_zero, zero_div, add_zero]
    · rw [if_neg hpos.ne', if_neg (nearest_fraction_pos hpos hscale).ne']
      rfl

theorem narrowMagnitude_of_fraction {mantissa : ℕ} (hscale : scale ≤ 4)
    (h : mantissa % tenPow scale ≠ 0) :
    narrowMagnitude mantissa scale = rescale (narrowSum mantissa scale) scale := by
  rw [narrowMagnitude_eq mantissa hscale, narrowCount, if_neg h, rescale]

theorem narrowMagnitude_of_whole {mantissa : ℕ} (hscale : scale ≤ 4)
    (h : mantissa % tenPow scale = 0) :
    narrowMagnitude mantissa scale = nearest (mantissa / 10 ^ scale) := by
  rw [narrowMagnitude_eq mantissa hscale, narrowCount, if_pos h]

theorem nearest_narrowMagnitude (mantissa : ℕ) (hscale : scale ≤ 4) :
    nearest (narrowMagnitude mantissa scale) = narrowMagnitude mantissa scale := by
  rw [narrowMagnitude_eq mantissa hscale]
  exact (representable_nearest (by positivity)).nearest_eq (nearest_nonneg _)

section Size

/-- The fraction of a decimal and the double nearest to it. -/
theorem fraction_bounds (mantissa scale : ℕ) :
    0 ≤ ((mantissa % tenPow scale : ℕ) : ℚ) / 10 ^ scale ∧
      ((mantissa % tenPow scale : ℕ) : ℚ) / 10 ^ scale ≤ 1 := by
  refine ⟨by positivity, ?_⟩
  rw [div_le_one (by positivity), ← cast_tenPow]
  exact_mod_cast (Nat.mod_lt mantissa (tenPow_pos scale)).le

/-- A double that is near a decimal is brought to the double nearest to the decimal. -/
theorem rescale_of_near (hx : 0 ≤ x) (hle : x * 10 ^ scale ≤ 2 ^ 52)
    (h : |x * 10 ^ scale - mantissa| < 1 / 4) :
    rescale x scale = nearest ((mantissa : ℚ) / 10 ^ scale) := by
  have herror := abs_nearest_sub_le (x := x * 10 ^ scale) (k := 52) (by norm_num) (by positivity) (by
    norm_num at hle ⊢
    exact hle)
  norm_num at herror
  have hcount : wholeUp (nearest (x * 10 ^ scale)) = mantissa := by
    refine wholeUp_eq_of_abs_lt (nearest_nonneg _) ?_
    have htriangle := abs_sub_le (nearest (x * 10 ^ scale)) (x * 10 ^ scale) mantissa
    linarith
  rw [rescale, hcount]

/-- The sum of the two parts of a decimal is near it. -/
theorem abs_narrowSum_sub_le {k : ℕ} (hk : k ≤ 53) (hlt : mantissa / tenPow scale < 2 ^ k) :
    |narrowSum mantissa scale - mantissa / 10 ^ scale| ≤ (2 ^ k + 1) / 2 ^ 54 := by
  have hpow : 2 ^ k ≤ 2 ^ 53 := Nat.pow_le_pow_right (by norm_num) hk
  have hwhole : nearest ((mantissa / tenPow scale : ℕ) : ℚ) = (mantissa / tenPow scale : ℕ) :=
    (Representable.natCast (by omega)).nearest_eq (Nat.cast_nonneg _)
  obtain ⟨hnonneg, hone⟩ := fraction_bounds mantissa scale
  have hlt : ((mantissa / tenPow scale : ℕ) : ℚ) + 1 ≤ 2 ^ k := by exact_mod_cast hlt
  have hfraction := abs_nearest_sub_le (k := 0) (by norm_num) hnonneg (by simpa using hone)
  have hfractionOne := nearest_le_of_le hnonneg (representable_two_zpow (k := 0) (by norm_num))
    (by simpa using hone)
  have hsumNonneg := add_nonneg (Nat.cast_nonneg (α := ℚ) (mantissa / tenPow scale))
    (nearest_nonneg (((mantissa % tenPow scale : ℕ) : ℚ) / 10 ^ scale))
  rw [split_at_point, narrowSum, hwhole]
  generalize ((mantissa / tenPow scale : ℕ) : ℚ) = whole at *
  generalize ((mantissa % tenPow scale : ℕ) : ℚ) / 10 ^ scale = fraction at *
  have hsum := abs_nearest_sub_le (k := k) (x := whole + nearest fraction) (by omega)
    hsumNonneg (by
      rw [zpow_natCast]
      norm_num at hfractionOne
      linarith)
  calc |nearest (whole + nearest fraction) - (whole + fraction)|
    _ ≤ |nearest (whole + nearest fraction) - (whole + nearest fraction)| +
        |whole + nearest fraction - (whole + fraction)| := abs_sub_le ..
    _ ≤ (2 : ℚ) ^ ((k : ℤ) - 54) + 2 ^ ((0 : ℤ) - 54) := by
      rw [add_sub_add_left_eq_sub]
      gcongr
    _ = (2 ^ k + 1) / 2 ^ 54 := by
      rw [zpow_sub₀ two_ne_zero, zpow_sub₀ two_ne_zero, zpow_natCast, zpow_zero, ← add_div]
      norm_num

/-- A decimal that is not large narrows to the double nearest to it. -/
theorem narrowMagnitude_of_lt {k : ℕ} (hscale : scale ≤ 4)
    (hk : (2 ^ k + 1) * 10 ^ scale < 2 ^ 52) (hlt : mantissa < 2 ^ k * 10 ^ scale) :
    narrowMagnitude mantissa scale = nearest (mantissa / 10 ^ scale) := by
  have hsize : 2 ^ k * 10 ^ scale < 2 ^ 52 :=
    (Nat.mul_le_mul_right _ (Nat.le_succ _)).trans_lt hk
  have hexponent : k ≤ 53 := by
    by_contra hlarge
    have := Nat.pow_le_pow_right (n := 2) (by norm_num) (by omega : 53 ≤ k)
    have := Nat.le_mul_of_pos_right (2 ^ k) (Nat.pow_pos (n := scale) (by norm_num : 0 < 10))
    omega
  rcases eq_or_ne (mantissa % tenPow scale) 0 with hzero | hne
  · exact narrowMagnitude_of_whole hscale hzero
  rw [narrowMagnitude_of_fraction hscale hne]
  have hten : (0 : ℚ) < 10 ^ scale := by positivity
  have hsum := abs_narrowSum_sub_le hexponent (Nat.div_lt_of_lt_mul (Nat.mul_comm .. ▸ hlt))
  have hparts : narrowSum mantissa scale * 10 ^ scale - mantissa =
      (narrowSum mantissa scale - mantissa / 10 ^ scale) * 10 ^ scale := by
    rw [sub_mul, div_mul_cancel₀ _ hten.ne']
  have hk : ((2 : ℚ) ^ k + 1) * 10 ^ scale < 2 ^ 52 := by exact_mod_cast hk
  have hnear : |narrowSum mantissa scale * 10 ^ scale - mantissa| < 1 / 4 := by
    rw [hparts, abs_mul, abs_of_pos hten]
    calc |narrowSum mantissa scale - mantissa / 10 ^ scale| * 10 ^ scale
      _ ≤ (2 ^ k + 1) / 2 ^ 54 * 10 ^ scale := by gcongr
      _ = (2 ^ k + 1) * 10 ^ scale / 2 ^ 54 := by rw [div_mul_eq_mul_div]
      _ < 2 ^ 52 / 2 ^ 54 := by gcongr
      _ = 1 / 4 := by norm_num
  have hmantissa : (mantissa : ℚ) + 1 ≤ 2 ^ 52 := by
    exact_mod_cast (by omega : mantissa + 1 ≤ 2 ^ 52)
  refine rescale_of_near (nearest_nonneg _) ?_ hnear
  rw [abs_lt] at hnear
  linarith

/-- Bringing to a scale keeps order. -/
theorem rescale_mono (hx : 0 ≤ x) (hxy : x ≤ y) (scale : ℕ) : rescale x scale ≤ rescale y scale := by
  refine nearest_mono (by positivity) ?_
  gcongr
  exact wholeUp_mono (nearest_nonneg _) (nearest_mono (by positivity) (by gcongr))

/-- A power of two is left alone. -/
theorem rescale_two_pow (k : ℕ) (hscale : scale ≤ 4) : rescale (2 ^ k) scale = 2 ^ k := by
  have hrep : Representable ((2 ^ k * 10 ^ scale : ℕ) : ℚ) := by
    refine ⟨10 ^ scale, k, ?_, by omega, ?_⟩
    · exact (Nat.pow_le_pow_right (by norm_num) hscale).trans (by norm_num)
    · push_cast
      rw [zpow_natCast, mul_comm]
  have hscaled : (2 : ℚ) ^ k * 10 ^ scale = ((2 ^ k * 10 ^ scale : ℕ) : ℚ) := by push_cast; rfl
  have hten : (10 : ℚ) ^ scale ≠ 0 := by positivity
  rw [rescale, hscaled, hrep.nearest_eq (Nat.cast_nonneg _), wholeUp_natCast, ← hscaled,
    mul_div_cancel_right₀ _ hten]
  exact (by exact_mod_cast representable_two_zpow (k := k) (by omega) :
    Representable ((2 : ℚ) ^ k)).nearest_eq (by positivity)

theorem representable_two_pow (k : ℕ) : Representable ((2 : ℚ) ^ k) := by
  exact_mod_cast representable_two_zpow (k := k) (by omega)

/-- The fraction of a decimal does not round past one. -/
theorem nearest_fraction_le_one (mantissa scale : ℕ) :
    nearest (((mantissa % tenPow scale : ℕ) : ℚ) / 10 ^ scale) ≤ 1 := by
  obtain ⟨hnonneg, hone⟩ := fraction_bounds mantissa scale
  simpa using nearest_le_of_le hnonneg (representable_two_pow 0) (by simpa using hone)

/-- Narrowing does not pass a power of two. -/
theorem narrowMagnitude_le_two_pow {k : ℕ} (hk : k ≤ 53) (hscale : scale ≤ 4)
    (hle : mantissa ≤ 2 ^ k * 10 ^ scale) : narrowMagnitude mantissa scale ≤ 2 ^ k := by
  have hvalue : (mantissa : ℚ) / 10 ^ scale ≤ 2 ^ k := by
    rw [div_le_iff₀ (by positivity)]
    exact_mod_cast hle
  rcases eq_or_ne (mantissa % tenPow scale) 0 with hzero | hne
  · rw [narrowMagnitude_of_whole hscale hzero]
    exact nearest_le_of_le (by positivity) (representable_two_pow k) hvalue
  · have hwhole : mantissa / tenPow scale < 2 ^ k := by
      by_contra hlarge
      have hmul := Nat.mul_le_mul_right (tenPow scale) (not_lt.mp hlarge)
      have hdiv := Nat.div_add_mod' mantissa (tenPow scale)
      change mantissa ≤ 2 ^ k * tenPow scale at hle
      omega
    have hfits := Nat.pow_le_pow_right (n := 2) (by norm_num) hk
    have hfixed : nearest ((mantissa / tenPow scale : ℕ) : ℚ) = (mantissa / tenPow scale : ℕ) :=
      (Representable.natCast (by omega)).nearest_eq (Nat.cast_nonneg _)
    have hfraction := nearest_fraction_le_one mantissa scale
    have hwhole : ((mantissa / tenPow scale : ℕ) : ℚ) + 1 ≤ 2 ^ k := by exact_mod_cast hwhole
    rw [narrowMagnitude_of_fraction hscale hne, ← rescale_two_pow k hscale]
    refine rescale_mono (nearest_nonneg _) (nearest_le_of_le ?_ (representable_two_pow k) ?_) scale
    · exact add_nonneg (nearest_nonneg _) (nearest_nonneg _)
    · rw [hfixed]
      linarith

theorem two_pow_le_narrowMagnitude {k : ℕ} (hscale : scale ≤ 4)
    (hle : 2 ^ k * 10 ^ scale ≤ mantissa) : 2 ^ k ≤ narrowMagnitude mantissa scale := by
  rcases eq_or_ne (mantissa % tenPow scale) 0 with hzero | hne
  · rw [narrowMagnitude_of_whole hscale hzero]
    refine le_nearest_of_le (by positivity) (representable_two_pow k) ?_
    rw [le_div_iff₀ (by positivity)]
    exact_mod_cast hle
  · have hwhole : 2 ^ k ≤ mantissa / tenPow scale := (Nat.le_div_iff_mul_le (tenPow_pos scale)).mpr hle
    have hfirst := le_nearest_of_le (by positivity) (representable_two_pow k)
      (by exact_mod_cast hwhole : (2 : ℚ) ^ k ≤ (mantissa / tenPow scale : ℕ))
    have hsecond := nearest_nonneg (((mantissa % tenPow scale : ℕ) : ℚ) / 10 ^ scale)
    rw [narrowMagnitude_of_fraction hscale hne, ← rescale_two_pow k hscale]
    refine rescale_mono (by positivity) ?_ scale
    exact le_nearest_of_le (by positivity) (representable_two_pow k) (by linarith)

/-- A decimal with fraction digits narrows to less than a whole one can. -/
theorem narrowMagnitude_le_of_scale_pos (hmantissa : mantissa < 2 ^ 96) (hpos : 0 < scale)
    (hscale : scale ≤ 4) : narrowMagnitude mantissa scale ≤ 2 ^ 93 := by
  have hten : (10 : ℚ) ≤ 10 ^ scale := le_self_pow₀ (by norm_num) hpos.ne'
  have hmantissa : (mantissa : ℚ) ≤ 2 ^ 96 := by exact_mod_cast hmantissa.le
  have hvalue : (mantissa : ℚ) / 10 ^ scale ≤ 7 * 2 ^ 90 := by
    rw [div_le_iff₀ (by positivity)]
    calc (mantissa : ℚ) ≤ 2 ^ 96 := hmantissa
      _ ≤ 7 * 2 ^ 90 * 10 := by norm_num
      _ ≤ 7 * 2 ^ 90 * 10 ^ scale := by gcongr
  rcases eq_or_ne (mantissa % tenPow scale) 0 with hzero | hne
  · rw [narrowMagnitude_of_whole hscale hzero]
    exact nearest_le_of_le (by positivity) (representable_two_pow 93) (by linarith)
  · have hwhole : nearest ((mantissa / tenPow scale : ℕ) : ℚ) ≤ 7 * 2 ^ 90 := by
      refine nearest_le_of_le (Nat.cast_nonneg _) ⟨7, 90, by norm_num, by norm_num, rfl⟩ ?_
      have hnonneg := (fraction_bounds mantissa scale).1
      have hsplit := split_at_point mantissa scale
      exact_mod_cast (by linarith : ((mantissa / tenPow scale : ℕ) : ℚ) ≤ 7 * 2 ^ 90)
    have hfraction := nearest_fraction_le_one mantissa scale
    rw [narrowMagnitude_of_fraction hscale hne, ← rescale_two_pow 93 hscale]
    refine rescale_mono (nearest_nonneg _) (nearest_le_of_le ?_ (representable_two_pow 93) ?_) scale
    · exact add_nonneg (nearest_nonneg _) (nearest_nonneg _)
    · norm_num at hwhole ⊢
      linarith

theorem le_nearest_smallest : (1 : ℚ) / 10000 ≤ nearest (1 / 10000) := by decide +kernel

/-- A decimal that is not zero narrows to at least the smallest price. -/
theorem le_narrowMagnitude (hmantissa : 0 < mantissa) (hscale : scale ≤ 4) :
    (10 : ℚ) ^ (-4 : ℤ) ≤ narrowMagnitude mantissa scale := by
  have hpow : 10 ^ scale ≤ 10000 := tenPow_le hscale
  have hten : (10 : ℚ) ^ scale ≤ 10000 := by exact_mod_cast hpow
  have hsmallest : (10 : ℚ) ^ (-4 : ℤ) = 1 / 10000 := by norm_num
  rw [hsmallest]
  rcases Nat.lt_or_ge mantissa (10 ^ scale) with hsmall | hlarge
  · rw [narrowMagnitude_of_lt (k := 0) hscale (by omega) (by omega)]
    refine le_nearest_smallest.trans (nearest_mono (by norm_num) ?_)
    have hmantissa : (1 : ℚ) ≤ mantissa := by exact_mod_cast hmantissa
    gcongr
  · have hone := two_pow_le_narrowMagnitude (k := 0) hscale (by omega : 2 ^ 0 * 10 ^ scale ≤ mantissa)
    rw [pow_zero] at hone
    linarith

end Size

end Price

end PriceArchive
