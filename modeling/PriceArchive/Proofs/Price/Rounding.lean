import PriceArchive.Proofs.Price.Order

namespace PriceArchive

namespace Price

variable {a b d : Decimal}

/-- The number that a rounded price denotes. -/
theorem value_round (d : Decimal) :
    (round d).value = if d.negative then -((ticks d : ℚ) / 10 ^ 4) else (ticks d : ℚ) / 10 ^ 4 := by
  rw [Decimal.value_eq, mantissa_round_div]
  by_cases hzero : ticks d = 0
  · simp [hzero]
  · rw [negative_round hzero]

theorem abs_value_round (d : Decimal) : |(round d).value| = (ticks d : ℚ) / 10 ^ 4 := by
  rw [Decimal.abs_value, mantissa_round_div]

/-- The size of a price in ten-thousandths is within a half of what it is rounded to. -/
theorem ticks_bounds (d : Decimal) :
    (ticks d : ℚ) - 1 / 2 ≤ |d.value| * 10 ^ 4 ∧ |d.value| * 10 ^ 4 < ticks d + 1 / 2 :=
  (wholeUp_eq_iff (by positivity) (ticks d)).mp rfl

theorem abs_round_sub (d : Decimal) :
    |(round d).value - d.value| = |(ticks d : ℚ) / 10 ^ 4 - (|d.value|)| := by
  rw [value_round]
  cases hsign : d.negative
  · rw [if_neg Bool.false_ne_true, abs_of_nonneg (value_of_not_negative hsign)]
  · rw [if_pos rfl, abs_of_nonpos (value_of_negative hsign), abs_sub_comm]
    congr 1
    ring

theorem abs_round_sub_le (d : Decimal) : |(round d).value - d.value| ≤ 1 / 20000 := by
  obtain ⟨hlow, hhigh⟩ := ticks_bounds d
  rw [abs_round_sub, abs_le]
  constructor <;> linarith

/-- A half is rounded away from zero. -/
theorem lt_abs_round_of_tie (h : |(round d).value - d.value| = 1 / 20000) :
    |d.value| < |(round d).value| := by
  obtain ⟨hlow, hhigh⟩ := ticks_bounds d
  rw [abs_round_sub] at h
  rw [abs_value_round]
  rcases abs_choice ((ticks d : ℚ) / 10 ^ 4 - |d.value|) with habs | habs <;> linarith

/-- No whole number of ten-thousandths is nearer to a price. -/
theorem abs_round_sub_le_abs_sub (d : Decimal) (n : ℤ) :
    |(round d).value - d.value| ≤ |(n : ℚ) / 10 ^ 4 - d.value| := by
  have hnear := abs_round_sub_le d
  obtain ⟨k, hk⟩ : ∃ k : ℤ, (round d).value = k / 10 ^ 4 := by
    rw [value_round]
    split
    · exact ⟨-ticks d, by push_cast; ring⟩
    · exact ⟨ticks d, by push_cast; ring⟩
  rw [hk] at hnear ⊢
  have hscale (i : ℤ) : |(i : ℚ) / 10 ^ 4 - d.value| = |(i : ℚ) - d.value * 10 ^ 4| / 10 ^ 4 :=
    calc |(i : ℚ) / 10 ^ 4 - d.value| = |((i : ℚ) - d.value * 10 ^ 4) / 10 ^ 4| := by
          rw [sub_div, mul_div_cancel_right₀ _ (by norm_num)]
      _ = |(i : ℚ) - d.value * 10 ^ 4| / 10 ^ 4 := by rw [abs_div, abs_of_pos (by norm_num : (0 : ℚ) < 10 ^ 4)]
  rw [hscale] at hnear
  rw [hscale, hscale]
  generalize d.value * 10 ^ 4 = y at hnear ⊢
  rcases eq_or_ne k n with rfl | hne
  · exact le_rfl
  · have hapart := one_le_abs_sub_add y hne
    refine div_le_div_of_nonneg_right ?_ (by norm_num)
    linarith

theorem round_mono (h : a.value ≤ b.value) : (round a).value ≤ (round b).value := by
  have hsize {c e : Decimal} (hce : |c.value| ≤ |e.value|) :
      (ticks c : ℚ) / 10 ^ 4 ≤ (ticks e : ℚ) / 10 ^ 4 := by
    gcongr
    exact ticks_mono hce
  have hnonneg (c : Decimal) : 0 ≤ (ticks c : ℚ) / 10 ^ 4 := by positivity
  rw [value_round, value_round]
  cases ha : a.negative <;> cases hb : b.negative
  · have := value_of_not_negative ha
    have := value_of_not_negative hb
    simpa using hsize (by rwa [abs_of_nonneg ‹_›, abs_of_nonneg ‹_›])
  · -- Both prices are zero.
    have hazero : a.value = 0 := le_antisymm (h.trans (value_of_negative hb)) (value_of_not_negative ha)
    have hbzero : b.value = 0 := le_antisymm (value_of_negative hb) ((value_of_not_negative ha).trans h)
    simp [ticks_of_value_eq_zero hazero, ticks_of_value_eq_zero hbzero]
  · have := hnonneg a
    have := hnonneg b
    simp only [if_true, Bool.false_eq_true, if_false]
    linarith
  · have := value_of_negative ha
    have := value_of_negative hb
    simpa using hsize (by rw [abs_of_nonpos ‹_›, abs_of_nonpos ‹_›]; linarith)

theorem ticks_neg (d : Decimal) : ticks (-d) = ticks d := by
  have hsize : |(-d).value| = |d.value| := by
    rw [Decimal.abs_value, Decimal.abs_value]
    rfl
  rw [ticks, ticks, hsize]

/-- A price is rounded alike on both sides of zero. -/
theorem value_round_neg (d : Decimal) : (round (-d)).value = -(round d).value := by
  have hsign : (-d).negative = !d.negative := rfl
  rw [value_round, value_round, ticks_neg, hsign]
  cases d.negative <;> simp

/-- As a decimal it has the same digits then, and the other sign unless all digits are lost. -/
theorem round_neg (d : Decimal) :
    (round (-d)).mantissa = (round d).mantissa ∧ (round (-d)).scale = (round d).scale ∧
      (d.scale ≤ places ∨ (round d).value ≠ 0 → round (-d) = -round d) := by
  change ((d.neg).roundTo places).mantissa = (d.roundTo places).mantissa ∧
    ((d.neg).roundTo places).scale = (d.roundTo places).scale ∧
    (d.scale ≤ places ∨ (d.roundTo places).value ≠ 0 → (d.neg).roundTo places = (d.roundTo places).neg)
  by_cases hscale : d.scale ≤ places
  · have hround : (d.neg).roundTo places = (d.roundTo places).neg := by
      rw [Decimal.roundTo, Decimal.roundTo, dif_pos hscale, dif_pos (show d.neg.scale ≤ places from hscale)]
    exact ⟨by rw [hround]; rfl, by rw [hround]; rfl, fun _ => hround⟩
  · rw [Decimal.roundTo, Decimal.roundTo, dif_neg hscale, dif_neg (show ¬ d.neg.scale ≤ places from hscale)]
    refine ⟨rfl, rfl, fun hkept => ?_⟩
    have hvalue := hkept.resolve_left hscale
    rw [Decimal.value_eq] at hvalue
    have hmantissa : roundHalfUp d.mantissa (tenPow (d.scale - places)) ≠ 0 := by
      intro hzero
      simp [Decimal.ofParts, hzero] at hvalue
    simp only [Decimal.neg, Decimal.ofParts, bne_iff_ne.mpr hmantissa, Bool.and_true]

theorem round_round (d : Decimal) : round (round d) = round d := round_of_scale_le (scale_round_le d)

/-- A decimal has room for the carry of a rounding up. -/
theorem mantissa_round (h : places < d.scale) :
    ((round d).mantissa = d.mantissa / tenPow (d.scale - places) ∨
        (round d).mantissa = d.mantissa / tenPow (d.scale - places) + 1) ∧
      d.mantissa / tenPow (d.scale - places) + 1 < Decimal.mantissaLimit := by
  have hround : (round d).mantissa = roundHalfUp d.mantissa (tenPow (d.scale - places)) := by
    rw [round, Decimal.roundTo, dif_neg (by omega)]
    rfl
  constructor
  · rw [hround, roundHalfUp_eq_div_add _ (tenPow_pos _)]
    split
    · exact .inr rfl
    · exact .inl rfl
  · have hten : 10 ≤ tenPow (d.scale - places) := Nat.le_self_pow (by omega) 10
    have hle := Nat.div_le_div_left (c := 10) hten (by norm_num) (a := d.mantissa)
    have hlt := d.mantissa_lt
    have hlimit : Decimal.mantissaLimit = 79228162514264337593543950336 := rfl
    omega

theorem negative_iff (h : ¬ d.IsNegativeZero) : d.negative = true ↔ d.value < 0 := by
  constructor
  · intro hsign
    have hmantissa : d.mantissa ≠ 0 := fun hzero => h ⟨hsign, hzero⟩
    rw [Decimal.value_eq, if_pos hsign, neg_lt_zero]
    positivity
  · intro hlt
    by_contra hsign
    exact absurd (value_of_not_negative (Bool.eq_false_iff.mpr hsign)) (not_le.mpr hlt)

theorem value_round_neg_iff (d : Decimal) : (round d).value < 0 ↔ d.value ≤ -(1 / 20000) := by
  obtain ⟨hlow, hhigh⟩ := ticks_bounds d
  have hnonneg : (0 : ℚ) ≤ ticks d := Nat.cast_nonneg _
  rw [value_round]
  cases hsign : d.negative
  · have hvalue := value_of_not_negative hsign
    rw [if_neg Bool.false_ne_true]
    exact iff_of_false (not_lt.mpr (by positivity)) (by linarith)
  · have hvalue := value_of_negative hsign
    rw [abs_of_nonpos hvalue] at hlow hhigh
    rw [if_pos rfl, neg_lt_zero]
    constructor
    · intro hpos
      have hone : (1 : ℚ) ≤ ticks d := by
        rw [div_pos_iff_of_pos_right (by norm_num)] at hpos
        exact_mod_cast hpos
      linarith
    · intro hle
      have hpos : (0 : ℚ) < ticks d := by linarith
      positivity

/-- A rounded price has at most four fraction digits, and a price that has no more stays as it is, its
scale and its sign included. It is off by at most half a ten-thousandth, and no number of four fraction
digits is nearer; where it is off by just a half it lies farther from zero than the price. Its mantissa is
that of the digits that are kept, or one more, for which there is always room. It is a zero with a minus sign
only if the price is one; of any other price it has a sign exactly if it denotes a number below zero, which
the prices from half a ten-thousandth below zero on do. With the sign of a price that of the number turns to
which it is rounded, and also that of the decimal unless digits are cut off and none that is not zero is
left. Rounding keeps the order of prices, and does nothing when it is done again. -/
theorem round_is_nearest (c d : Decimal) :
    (round d).scale ≤ places ∧ (d.scale ≤ places → round d = d) ∧
      |(round d).value - d.value| ≤ 1 / 20000 ∧
      (∀ n : ℤ, |(round d).value - d.value| ≤ |(n : ℚ) / 10 ^ places - d.value|) ∧
      (|(round d).value - d.value| = 1 / 20000 → |d.value| < |(round d).value|) ∧
      (places < d.scale →
        ((round d).mantissa = d.mantissa / tenPow (d.scale - places) ∨
            (round d).mantissa = d.mantissa / tenPow (d.scale - places) + 1) ∧
          d.mantissa / tenPow (d.scale - places) + 1 < Decimal.mantissaLimit) ∧
      ((round d).IsNegativeZero → d.IsNegativeZero) ∧
      (¬ d.IsNegativeZero → ((round d).negative = true ↔ (round d).value < 0)) ∧
      ((round d).value < 0 ↔ d.value ≤ -(1 / 20000)) ∧
      ((round (-d)).value = -(round d).value ∧ (round (-d)).mantissa = (round d).mantissa ∧
        (round (-d)).scale = (round d).scale ∧
        (d.scale ≤ places ∨ (round d).value ≠ 0 → round (-d) = -round d)) ∧
      (c.value ≤ d.value → (round c).value ≤ (round d).value) ∧ round (round d) = round d :=
  ⟨scale_round_le d, round_of_scale_le, abs_round_sub_le d, abs_round_sub_le_abs_sub d,
    lt_abs_round_of_tie, mantissa_round, isNegativeZero_of_round,
    fun hsign => negative_iff (mt isNegativeZero_of_round hsign), value_round_neg_iff d,
    ⟨value_round_neg d, round_neg d⟩, round_mono, round_round d⟩

/-- The largest mantissa with five fraction digits, below zero: it lies half way between two prices. -/
def lowestTie : Decimal := .ofParts true (Decimal.mantissaLimit - 1) 5 (by decide) (by decide)

/-- A number of 28 nines behind the point. -/
def allNines : Decimal := .ofParts false 9999999999999999999999999999 28 (by decide) (by decide)

/-- The tie goes away from zero, the nines carry into the whole part, and zero keeps its scale. -/
theorem round_is_nearest_carry :
    |(round lowestTie).value - lowestTie.value| = 1 / 20000 ∧
      |lowestTie.value| < |(round lowestTie).value| ∧ (round lowestTie).negative = true ∧
      round (-lowestTie) = -round lowestTie ∧
      places < allNines.scale ∧ (round allNines).mantissa = 10000 ∧
      allNines.mantissa / tenPow (allNines.scale - places) + 1 < Decimal.mantissaLimit ∧
      lowestTie.value ≤ allNines.value ∧ (round lowestTie).value ≤ (round allNines).value ∧
      Decimal.zero.scale ≤ places ∧ round .zero = .zero := by
  have htie : |(round lowestTie).value - lowestTie.value| = 1 / 20000 := by decide +kernel
  have hle : lowestTie.value ≤ allNines.value := by decide +kernel
  have hsign : ¬ lowestTie.IsNegativeZero := by decide
  obtain ⟨-, -, -, -, haway, -, -, hnegative, -, hturn, -, -⟩ := round_is_nearest .zero lowestTie
  obtain ⟨-, -, -, -, -, hcarry, -, -, -, -, hmono, -⟩ := round_is_nearest lowestTie allNines
  obtain ⟨-, hsame, -⟩ := round_is_nearest .zero .zero
  have hplaces : places < allNines.scale := by decide
  exact ⟨htie, haway htie, (hnegative hsign).mpr (by decide +kernel), hturn.2.2.2 (.inr (by decide +kernel)),
    hplaces, by decide +kernel, (hcarry hplaces).2, hle, hmono hle, by decide, hsame (by decide)⟩

/-- Less than half a ten-thousandth. -/
def belowTie : Decimal := .ofParts false 4 5 (by decide) (by decide)

/-- A zero with a minus sign is rounded to itself. And of a price of which nothing is left the sign does not
turn. -/
theorem rounding_meets_signed_zeros :
    (¬ ∀ d : Decimal, ¬ (round d).IsNegativeZero) ∧ ¬ ∀ d : Decimal, round (-d) = -round d :=
  ⟨fun hnever => hnever (-.zero) (by decide +kernel), fun hturns => absurd (hturns belowTie) (by decide +kernel)⟩

end Price

end PriceArchive
