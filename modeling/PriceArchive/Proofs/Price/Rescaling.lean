import PriceArchive.Proofs.Price.Narrowing
import PriceArchive.Proofs.Number.Bits

namespace PriceArchive

open Binary64

namespace Price

variable {mantissa scale : ℕ} {x y : ℚ}

section Sum

/-- A fraction is a multiple of `2 ^ (-17)` or lies away from it. -/
theorem fraction_apart {r : ℕ} {j : ℤ} (hscale : scale ≤ 4) (hne : (r : ℤ) * 2 ^ 17 ≠ j * 10 ^ scale) :
    (2 : ℚ) ^ (-54 : ℤ) < |(r : ℚ) / 10 ^ scale - (j : ℚ) / 2 ^ 17| := by
  have hten : (0 : ℚ) < 10 ^ scale := by positivity
  have hpow : (10 : ℚ) ^ scale ≤ 10000 := by
    rw [← cast_tenPow]
    exact_mod_cast tenPow_le hscale
  have hwhole : (1 : ℚ) ≤ |(r : ℚ) * 2 ^ 17 - 10 ^ scale * j| := by
    have hint := Int.one_le_abs (sub_ne_zero.mpr hne)
    rw [mul_comm j] at hint
    exact_mod_cast hint
  rw [div_sub_div _ _ hten.ne' (by norm_num), abs_div,
    abs_of_pos (by positivity : (0 : ℚ) < 10 ^ scale * 2 ^ 17), lt_div_iff₀ (by positivity)]
  calc (2 : ℚ) ^ (-54 : ℤ) * (10 ^ scale * 2 ^ 17) ≤ 2 ^ (-54 : ℤ) * (10000 * 2 ^ 17) := by gcongr
    _ < 1 := by norm_num
    _ ≤ |(r : ℚ) * 2 ^ 17 - 10 ^ scale * j| := hwhole

/-- Rounding a fraction does not move it past a multiple of `2 ^ (-17)`: it is one itself, and then is
not rounded, or lies too far away. -/
theorem side_nearest_fraction {r : ℕ} (hr : r < tenPow scale) (hscale : scale ≤ 4) (j : ℤ) :
    ((j : ℚ) / 2 ^ 17 < nearest ((r : ℚ) / 10 ^ scale) ↔ (j : ℚ) / 2 ^ 17 < (r : ℚ) / 10 ^ scale) ∧
      (nearest ((r : ℚ) / 10 ^ scale) < (j : ℚ) / 2 ^ 17 ↔
        (r : ℚ) / 10 ^ scale < (j : ℚ) / 2 ^ 17) := by
  have hten : (0 : ℚ) < 10 ^ scale := by positivity
  have hone : (r : ℚ) / 10 ^ scale ≤ 1 := by
    rw [div_le_one hten, ← cast_tenPow]
    exact_mod_cast hr.le
  by_cases heq : (r : ℤ) * 2 ^ 17 = j * 10 ^ scale
  · have hexact : (r : ℚ) / 10 ^ scale = (j : ℚ) / 2 ^ 17 := by
      rw [div_eq_div_iff hten.ne' (by norm_num)]
      exact_mod_cast heq
    obtain ⟨n, rfl⟩ : ∃ n : ℕ, j = n := by
      refine Int.eq_ofNat_of_zero_le ?_
      by_contra hneg
      have hprod : j * 10 ^ scale < 0 := Int.mul_neg_of_neg_of_pos (not_le.mp hneg) (by positivity)
      omega
    have hn : n ≤ 2 ^ 17 := by
      rw [hexact, div_le_one (by norm_num)] at hone
      exact_mod_cast hone
    have hrep : Representable ((r : ℚ) / 10 ^ scale) := by
      refine ⟨n, -17, hn.trans (by norm_num), by norm_num, ?_⟩
      rw [hexact, Int.cast_natCast, zpow_neg, div_eq_mul_inv]
      norm_num
    rw [hrep.nearest_eq (by positivity)]
    exact ⟨Iff.rfl, Iff.rfl⟩
  · have hfar := fraction_apart hscale heq
    have herror := abs_nearest_sub_le (x := (r : ℚ) / 10 ^ scale) (k := 0) (by norm_num)
      (by positivity) (by simpa using hone)
    rw [zero_sub, abs_le] at herror
    rcases lt_abs.mp hfar with hleft | hright
    · constructor <;> constructor <;> intro <;> linarith
    · constructor <;> constructor <;> intro <;> linarith

/-- In units of `2 ^ (-17)` the neighbourhood of a double that is not small has whole ends. -/
theorem exists_ends (m : ℕ) {e : ℤ} (he : -15 ≤ e) : ∃ low high : ℤ,
    (neighbourhood m e).low = (low : ℚ) / 2 ^ 17 ∧ (neighbourhood m e).high = (high : ℚ) / 2 ^ 17 := by
  have hunit : (2 : ℚ) ^ e = ((2 ^ (e + 15).toNat : ℤ) : ℚ) / 2 ^ 15 := by
    rw [eq_div_iff (by norm_num)]
    push_cast
    rw [← zpow_natCast, ← zpow_natCast, ← zpow_add₀ two_ne_zero]
    congr 1
    omega
  have hgap : ∃ gap : ℤ, lowGap m e = gap / 4 := by
    unfold lowGap
    split
    · exact ⟨1, by norm_num⟩
    · exact ⟨2, by norm_num⟩
  obtain ⟨gap, hgap⟩ := hgap
  refine ⟨(4 * m - gap) * 2 ^ (e + 15).toNat, (4 * m + 2) * 2 ^ (e + 15).toNat, ?_, ?_⟩
  · rw [neighbourhood_low, hgap, hunit]
    push_cast
    ring
  · rw [neighbourhood_high, hunit]
    push_cast
    ring

/-- Two fractions that no multiple of `2 ^ (-17)` tells apart lie in the same neighbourhoods of doubles
that are not small. -/
theorem contains_add_of_same_side {whole s t : ℚ} {w : ℤ} (hwhole : whole = w)
    (hside : ∀ j : ℤ, ((j : ℚ) / 2 ^ 17 < s ↔ (j : ℚ) / 2 ^ 17 < t) ∧
      (s < (j : ℚ) / 2 ^ 17 ↔ t < (j : ℚ) / 2 ^ 17))
    {m : ℕ} {e : ℤ} (he : -15 ≤ e) (h : (neighbourhood m e).contains (whole + t) = true) :
    (neighbourhood m e).contains (whole + s) = true := by
  have hshift (j : ℤ) : (j : ℚ) / 2 ^ 17 = whole + ((j - w * 2 ^ 17 : ℤ) : ℚ) / 2 ^ 17 := by
    rw [hwhole]
    push_cast
    ring
  have hbelow (j : ℤ) : (j : ℚ) / 2 ^ 17 < whole + s ↔ (j : ℚ) / 2 ^ 17 < whole + t := by
    rw [hshift j, add_lt_add_iff_left, add_lt_add_iff_left]
    exact (hside _).1
  have habove (j : ℤ) : whole + s < (j : ℚ) / 2 ^ 17 ↔ whole + t < (j : ℚ) / 2 ^ 17 := by
    rw [hshift j, add_lt_add_iff_left, add_lt_add_iff_left]
    exact (hside _).2
  have hat (j : ℤ) : whole + s = (j : ℚ) / 2 ^ 17 ↔ whole + t = (j : ℚ) / 2 ^ 17 := by
    rw [eq_iff_le_not_lt, eq_iff_le_not_lt, ← not_lt, ← not_lt, hbelow, habove]
  obtain ⟨low, high, hlow, hhigh⟩ := exists_ends m he
  rw [Neighbourhood.contains_iff, hlow, hhigh, eq_comm (a := (low : ℚ) / 2 ^ 17)] at h ⊢
  rwa [hbelow, habove, hat, hat]

/-- The sum of the parts of a decimal that is not small is the double nearest to the decimal: the
rounding of its fraction is too small to matter. -/
theorem narrowSum_eq_nearest (hscale : scale ≤ 4) (hlarge : 2 ^ 37 ≤ mantissa / tenPow scale)
    (hlt : mantissa / tenPow scale ≤ 2 ^ 53) :
    narrowSum mantissa scale = nearest (mantissa / 10 ^ scale) := by
  have hside := side_nearest_fraction (Nat.mod_lt mantissa (tenPow_pos scale)) hscale
  have hwhole : nearest ((mantissa / tenPow scale : ℕ) : ℚ) = (mantissa / tenPow scale : ℕ) :=
    (Representable.natCast hlt).nearest_eq (Nat.cast_nonneg _)
  have hlarge : (2 : ℚ) ^ 37 ≤ (mantissa / tenPow scale : ℕ) := by exact_mod_cast hlarge
  have hnonneg := (fraction_bounds mantissa scale).1
  have hsum := split_at_point mantissa scale
  have hpos : (2 : ℚ) ^ 37 ≤ mantissa / 10 ^ scale := by linarith
  have hnearest := le_nearest_of_le (by positivity) (representable_two_pow 37) hpos
  have hnearestPos : 0 < nearest ((mantissa : ℚ) / 10 ^ scale) := by linarith
  obtain ⟨hcanonical, hdouble⟩ := canonical_of_nearest_eq hnearestPos
    ((representable_nearest (by positivity)).nearest_eq hnearestPos.le)
  have hexponent : -15 ≤ unitExponent (nearest ((mantissa : ℚ) / 10 ^ scale)) := by
    have hunit := (hasUnit hnearestPos).lt
    have hpow : (2 : ℚ) ^ ((37 : ℕ) : ℤ) < 2 ^
        (unitExponent (nearest ((mantissa : ℚ) / 10 ^ scale)) + 53) := by
      rw [zpow_natCast]
      exact hnearest.trans_lt hunit
    have := (zpow_lt_zpow_iff_right₀ one_lt_two).mp hpow
    push_cast at this
    omega
  have hcontains := (nearest_eq_iff_contains hcanonical (by linarith)).mp hdouble
  generalize unitExponent (nearest ((mantissa : ℚ) / 10 ^ scale)) = e at *
  generalize unitCount (nearest ((mantissa : ℚ) / 10 ^ scale)) = m at *
  rw [hsum] at hcontains
  have hmoved := contains_add_of_same_side (Int.cast_natCast _).symm hside hexponent hcontains
  rw [narrowSum, hwhole, hdouble]
  refine (nearest_eq_iff_contains hcanonical ?_).mpr hmoved
  have hfraction := nearest_nonneg (((mantissa % tenPow scale : ℕ) : ℚ) / 10 ^ scale)
  linarith

end Sum

section Rescale

/-- The double nearest to a decimal that is not large is brought back to itself. -/
theorem rescale_nearest_of_lt {k : ℕ} (hk : 2 ^ k * 10 ^ scale < 2 ^ 52)
    (hlt : mantissa < 2 ^ k * 10 ^ scale) :
    rescale (nearest ((mantissa : ℚ) / 10 ^ scale)) scale = nearest ((mantissa : ℚ) / 10 ^ scale) := by
  have hten : (0 : ℚ) < 10 ^ scale := by positivity
  have hvalue : (mantissa : ℚ) / 10 ^ scale ≤ (2 : ℚ) ^ (k : ℤ) := by
    rw [zpow_natCast, div_le_iff₀ hten]
    exact_mod_cast hlt.le
  have herror := abs_nearest_sub_le (x := (mantissa : ℚ) / 10 ^ scale) (by omega) (by positivity) hvalue
  have hk : (2 : ℚ) ^ k * 10 ^ scale < 2 ^ 52 := by exact_mod_cast hk
  have hnear : |nearest ((mantissa : ℚ) / 10 ^ scale) * 10 ^ scale - mantissa| < 1 / 4 := by
    have hparts : nearest ((mantissa : ℚ) / 10 ^ scale) * 10 ^ scale - mantissa =
        (nearest ((mantissa : ℚ) / 10 ^ scale) - mantissa / 10 ^ scale) * 10 ^ scale := by
      rw [sub_mul, div_mul_cancel₀ _ hten.ne']
    rw [hparts, abs_mul, abs_of_pos hten]
    calc |nearest ((mantissa : ℚ) / 10 ^ scale) - mantissa / 10 ^ scale| * 10 ^ scale
      _ ≤ (2 : ℚ) ^ ((k : ℤ) - 54) * 10 ^ scale := by gcongr
      _ = 2 ^ k * 10 ^ scale / 2 ^ 54 := by
        rw [zpow_sub₀ two_ne_zero, zpow_natCast, div_mul_eq_mul_div]
        norm_num
      _ < 2 ^ 52 / 2 ^ 54 := by gcongr
      _ = 1 / 4 := by norm_num
  have hmantissa : (mantissa : ℚ) + 1 ≤ 2 ^ 52 := by
    exact_mod_cast (by omega : mantissa + 1 ≤ 2 ^ 52)
  refine rescale_of_near (nearest_nonneg _) ?_ hnear
  rw [abs_lt] at hnear
  linarith

/-- A decimal that rounds to a double narrows to it if it is whole, or if bringing the double to the
scale of the decimal leaves it alone. -/
theorem narrowMagnitude_eq_iff (hscale : scale ≤ 4) (hlt : mantissa / tenPow scale ≤ 2 ^ 53)
    (hx : nearest ((mantissa : ℚ) / 10 ^ scale) = x) :
    narrowMagnitude mantissa scale = x ↔ mantissa % tenPow scale = 0 ∨ rescale x scale = x := by
  rcases eq_or_ne (mantissa % tenPow scale) 0 with hzero | hne
  · exact iff_of_true ((narrowMagnitude_of_whole hscale hzero).trans hx) (.inl hzero)
  rw [or_iff_right hne]
  rcases Nat.lt_or_ge (mantissa / tenPow scale) (2 ^ 37) with hsmall | hlarge
  · have hmantissa : mantissa < 2 ^ 37 * 10 ^ scale :=
      (Nat.div_lt_iff_lt_mul (tenPow_pos scale)).mp hsmall
    have hpow : 10 ^ scale ≤ 10000 := tenPow_le hscale
    have hrescale := rescale_nearest_of_lt (by omega) hmantissa
    rw [hx] at hrescale
    exact iff_of_true ((narrowMagnitude_of_lt hscale (by omega) hmantissa).trans hx) hrescale
  · rw [narrowMagnitude_of_fraction hscale hne, narrowSum_eq_nearest hscale hlarge hlt, hx]

/-- Where decimals are dense, the next one rounds to the double again. -/
theorem rescale_of_large {n : ℕ} (hscale : scale ≤ 4) (hn : Representable n) (hpos : 0 < n)
    (hnearest : nearest ((n : ℚ) / 10 ^ scale) = x) (hlarge : 2 ^ 52 ≤ x * 10 ^ scale) :
    rescale x scale = x := by
  have hten : (0 : ℚ) < 10 ^ scale := by positivity
  have hfixed : nearest x = x := hnearest ▸
    (representable_nearest (by positivity)).nearest_eq (nearest_nonneg _)
  have hx : 0 < x := by
    have : 0 < x * 10 ^ scale := lt_of_lt_of_le (by norm_num) hlarge
    exact pos_of_mul_pos_left this hten.le
  obtain ⟨hcanonical, hdouble⟩ := canonical_of_nearest_eq hx hfixed
  generalize unitCount x = m at hcanonical hdouble
  generalize unitExponent x = e at hcanonical hdouble
  obtain ⟨w, hw⟩ := exists_natCast_nearest hlarge
  rw [rescale, hw, wholeUp_natCast]
  by_cases hgap : lowGap m e = 1 / 2
  · have hcontains : (neighbourhood m e).contains ((n : ℚ) / 10 ^ scale) = true :=
      (nearest_eq_iff_contains hcanonical (by positivity)).mp (hnearest.trans hdouble)
    have hclosest := abs_nearest_sub_le_abs_sub (x := x * 10 ^ scale) (by positivity) hn
    rw [hw] at hclosest
    have hparts (c : ℚ) : |c / 10 ^ scale - x| = |c - x * 10 ^ scale| / 10 ^ scale := by
      rw [← abs_of_pos hten, ← abs_div, abs_of_pos hten, sub_div, mul_div_cancel_right₀ _ hten.ne']
    have hcontains' := contains_of_abs_sub_le (z := (w : ℚ) / 10 ^ scale) hgap hcontains (by
      rw [← hdouble, hparts, hparts]
      gcongr)
    rw [hdouble]
    exact (nearest_eq_iff_contains hcanonical (pos_of_contains hcanonical.pos hcontains')).mpr
      hcontains'
  · -- A power of two times the scale is a double itself.
    have hlowest : m = 2 ^ 52 := by
      unfold lowGap at hgap
      split at hgap
      · rename_i hlowest
        exact hlowest.1
      · exact absurd rfl hgap
    have hrep : Representable (x * 10 ^ scale) := by
      have hmin := hcanonical.min_le
      refine ⟨10 ^ scale, e + 52, ?_, by omega, ?_⟩
      · exact (Nat.pow_le_pow_right (by norm_num) hscale).trans (by norm_num)
      · rw [hdouble, hlowest, zpow_add₀ two_ne_zero]
        push_cast
        ring
    rw [hrep.nearest_eq (by positivity)] at hw
    rw [← hw, mul_div_cancel_right₀ _ hten.ne', hfixed]

/-- The count to which a sum is brought is a number that a double can hold. -/
theorem representable_narrowCount (h : mantissa % tenPow scale ≠ 0) :
    Representable (narrowCount mantissa scale) := by
  rw [narrowCount, if_neg h]
  have hnonneg : 0 ≤ narrowSum mantissa scale * 10 ^ scale :=
    mul_nonneg (nearest_nonneg _) (by positivity)
  have hrep := representable_nearest hnonneg
  rcases le_or_gt (2 ^ 52) (nearest (narrowSum mantissa scale * 10 ^ scale)) with hlarge | hsmall
  · obtain ⟨n, hn⟩ := exists_natCast_nearest hlarge
    rw [hrep.nearest_eq (nearest_nonneg _)] at hn
    rw [hn, wholeUp_natCast]
    exact hn ▸ hrep
  · have hle := wholeUp_mono (nearest_nonneg _)
      (hsmall.le.trans_eq (by norm_num : (2 : ℚ) ^ 52 = (2 ^ 52 : ℕ)))
    rw [wholeUp_natCast] at hle
    exact Representable.natCast (hle.trans (by norm_num))

/-- Doubles of this size are multiples of a half. -/
theorem exists_nearest_eq_half {y : ℚ} (hlow : 2 ^ 51 ≤ y) (hhigh : y < 2 ^ 52) :
    ∃ h : ℕ, nearest y = h / 2 ∧ |(h : ℚ) / 2 - y| ≤ 1 / 4 := by
  have hunit : HasUnit y (-1) :=
    ⟨by norm_num, by norm_num at hhigh ⊢; exact hhigh, .inl (by norm_num at hlow ⊢; exact hlow)⟩
  obtain ⟨h, hh⟩ := hunit.exists_nearest_eq (by linarith)
  have hhalf : nearest y = h / 2 := by rw [hh, zpow_neg_one, div_eq_mul_inv]
  have herror := abs_nearest_sub_le (x := y) (k := 52) (by norm_num) (by linarith) hhigh.le
  rw [hhalf] at herror
  exact ⟨h, hhalf, herror.trans (by norm_num)⟩

/-- A multiple of a half that is near a whole number is brought to it, or is the half above it. -/
theorem wholeUp_half {h n : ℕ} (hnear : |(h : ℚ) / 2 - n| < 3 / 4) :
    wholeUp (h / 2) = n ∨ wholeUp (h / 2) = n + 1 ∧ (h : ℚ) / 2 = n + 1 / 2 := by
  rw [abs_lt] at hnear
  have hlow : 2 * n < h + 2 := by
    have : (2 * n : ℚ) < h + 2 := by linarith
    exact_mod_cast this
  have hhigh : h < 2 * n + 2 := by
    have : (h : ℚ) < 2 * n + 2 := by linarith
    exact_mod_cast this
  have hnonneg : (0 : ℚ) ≤ h / 2 := by positivity
  rcases Nat.lt_or_ge (2 * n) h with habove | hbelow
  · obtain rfl : h = 2 * n + 1 := by omega
    right
    have hvalue : ((2 * n + 1 : ℕ) : ℚ) / 2 = n + 1 / 2 := by
      push_cast
      ring
    refine ⟨(wholeUp_eq_iff hnonneg _).mpr ?_, hvalue⟩
    rw [hvalue]
    push_cast
    constructor <;> linarith
  · left
    have hbelow : (h : ℚ) ≤ 2 * n := by exact_mod_cast hbelow
    have hlow : (2 * n : ℚ) ≤ h + 1 := by exact_mod_cast Nat.le_of_lt_succ hlow
    exact (wholeUp_eq_iff hnonneg _).mpr ⟨by linarith, by linarith⟩

/-- The distance from a double to the next is .61 of the last of four digits here, so if a decimal is
brought up by one, then the double next to its own is near the decimal above. -/
theorem rescale_nearest_succ {n B : ℕ} (hB : B < 2 ^ 53)
    (hlow : n + 1 / 4 ≤ B * (2 : ℚ) ^ (-14 : ℤ) * 10 ^ 4)
    (hhigh : B * (2 : ℚ) ^ (-14 : ℤ) * 10 ^ 4 ≤ n + 10 ^ 4 / 2 ^ 15) (hle : n + 1 ≤ 2 ^ 53) :
    rescale (nearest (((n + 1 : ℕ) : ℚ) / 10 ^ 4)) 4 = nearest (((n + 1 : ℕ) : ℚ) / 10 ^ 4) := by
  rcases le_or_gt (2 ^ 52) (nearest (((n + 1 : ℕ) : ℚ) / 10 ^ 4) * 10 ^ 4) with hdense | hsparse
  · exact rescale_of_large le_rfl (Representable.natCast hle) (Nat.succ_pos n) rfl hdense
  have hclosest := abs_nearest_sub_le_abs_sub (x := ((n + 1 : ℕ) : ℚ) / 10 ^ 4) (by positivity)
    ⟨B + 1, -14, hB, by norm_num, rfl⟩
  have hnear : |nearest (((n + 1 : ℕ) : ℚ) / 10 ^ 4) * 10 ^ 4 - (n + 1 : ℕ)| < 1 / 4 := by
    have hfar : |((B + 1 : ℕ) : ℚ) * 2 ^ (-14 : ℤ) - ((n + 1 : ℕ) : ℚ) / 10 ^ 4| < 1 / 4 / 10 ^ 4 := by
      norm_num at hlow hhigh ⊢
      rw [abs_lt]
      constructor <;> linarith
    have hdist := hclosest.trans_lt hfar
    rw [abs_lt] at hdist ⊢
    norm_num at hdist ⊢
    constructor <;> linarith
  exact rescale_of_near (nearest_nonneg _) hsparse.le hnear

/-- Where the doubles are wider apart than half of the last of four digits. -/
theorem rescale_narrowMagnitude_four_of_ge (hfraction : mantissa % tenPow 4 ≠ 0)
    (hlarge : 2 ^ 38 * 10 ^ 4 ≤ mantissa) (hsmall : mantissa < 2 ^ 39 * 10 ^ 4) :
    rescale (narrowMagnitude mantissa 4) 4 = narrowMagnitude mantissa 4 := by
  have htenPow : tenPow 4 = 10 ^ 4 := rfl
  have hsum : narrowSum mantissa 4 = nearest (mantissa / 10 ^ 4) :=
    narrowSum_eq_nearest le_rfl (by rw [htenPow]; omega) (by rw [htenPow]; omega)
  have hlow : (2 : ℚ) ^ 38 ≤ mantissa / 10 ^ 4 := by
    rw [le_div_iff₀ (by positivity)]
    exact_mod_cast hlarge
  have hhigh : (mantissa : ℚ) / 10 ^ 4 < 2 ^ 39 := by
    rw [div_lt_iff₀ (by positivity)]
    exact_mod_cast hsmall
  have hself : narrowMagnitude mantissa 4 = rescale (nearest (mantissa / 10 ^ 4)) 4 := by
    rw [narrowMagnitude_of_fraction le_rfl hfraction, hsum]
  rcases le_or_gt (2 ^ 52) (nearest ((mantissa : ℚ) / 10 ^ 4) * 10 ^ 4) with hdense | hsparse
  · have hfixed := rescale_of_large le_rfl (Representable.natCast (by omega)) (by omega) rfl hdense
    rw [hself, hfixed, hfixed]
  have hunit : HasUnit ((mantissa : ℚ) / 10 ^ 4) (-14) :=
    ⟨by norm_num, by norm_num at hhigh ⊢; exact hhigh, .inl (by norm_num at hlow ⊢; exact hlow)⟩
  obtain ⟨B, hB⟩ := hunit.exists_nearest_eq (by linarith)
  have herror := abs_nearest_sub_le (x := (mantissa : ℚ) / 10 ^ 4) (k := 39) (by norm_num)
    (by positivity) (by norm_num at hhigh ⊢; exact hhigh.le)
  have hge := le_nearest_of_le (by positivity) (representable_two_pow 38) hlow
  rw [hB] at hself hsparse herror hge
  generalize hx : (B : ℚ) * 2 ^ (-14 : ℤ) = x at *
  obtain ⟨h, hhalf, herror'⟩ :=
    exists_nearest_eq_half (y := x * 10 ^ 4) (by linarith) hsparse
  rw [abs_le] at herror herror'
  have hnear : |(h : ℚ) / 2 - mantissa| < 3 / 4 := by
    rw [abs_lt]
    norm_num at herror herror' ⊢
    constructor <;> linarith
  rcases wholeUp_half hnear with hcount | ⟨hcount, habove⟩
  · have hstays : rescale x 4 = x := by
      rw [rescale, hhalf, hcount, hB]
    rw [hself, hstays, hstays]
  · have hnext : narrowMagnitude mantissa 4 = nearest (((mantissa + 1 : ℕ) : ℚ) / 10 ^ 4) := by
      rw [hself, rescale, hhalf, hcount]
    rw [hnext]
    subst hx
    refine rescale_nearest_succ (B := B) ?_ ?_ ?_ (by omega)
    · have : (B : ℚ) < 2 ^ 53 := by
        norm_num at hsparse
        linarith
      exact_mod_cast this
    · norm_num at herror' ⊢
      linarith
    · norm_num at herror ⊢
      linarith

/-- The double to which a decimal of four fraction digits narrows is left alone at this scale. -/
theorem rescale_narrowMagnitude_four (hfraction : mantissa % tenPow 4 ≠ 0) :
    rescale (narrowMagnitude mantissa 4) 4 = narrowMagnitude mantissa 4 := by
  rcases Nat.lt_or_ge mantissa (2 ^ 38 * 10 ^ 4) with hsmall | hlarge
  · rw [narrowMagnitude_of_lt (k := 38) le_rfl (by norm_num) hsmall]
    exact rescale_nearest_of_lt (by norm_num) hsmall
  rcases Nat.lt_or_ge mantissa (2 ^ 39 * 10 ^ 4) with hsmall | hlarge
  · exact rescale_narrowMagnitude_four_of_ge hfraction hlarge hsmall
  · have hge := two_pow_le_narrowMagnitude le_rfl hlarge
    have hcount : narrowMagnitude mantissa 4 = nearest (narrowCount mantissa 4 / 10 ^ 4) :=
      narrowMagnitude_eq mantissa le_rfl
    refine rescale_of_large le_rfl (representable_narrowCount hfraction) ?_ hcount.symm ?_
    · refine Nat.pos_of_ne_zero fun hzero => ?_
      rw [hcount, hzero, Nat.cast_zero, zero_div, nearest_zero] at hge
      norm_num at hge
    · linarith

end Rescale

end Price

end PriceArchive
