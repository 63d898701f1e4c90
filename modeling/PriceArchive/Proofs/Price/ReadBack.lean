import PriceArchive.Proofs.Number.Doubles
import PriceArchive.Proofs.Price.Narrowing

namespace PriceArchive

open Binary64

theorem Decimal.value_eq (d : Decimal) :
    d.value = if d.negative then -((d.mantissa : ℚ) / 10 ^ d.scale)
      else (d.mantissa : ℚ) / 10 ^ d.scale := by
  rw [value, Rat.mkRat_eq_div, Int.cast_natCast, cast_tenPow]

theorem Decimal.abs_value (d : Decimal) : |d.value| = (d.mantissa : ℚ) / 10 ^ d.scale := by
  have hnonneg : (0 : ℚ) ≤ (d.mantissa : ℚ) / 10 ^ d.scale := by positivity
  rw [value_eq]
  split
  · rw [abs_neg, abs_of_nonneg hnonneg]
  · exact abs_of_nonneg hnonneg

namespace Price

variable {d : Decimal} {m : ℕ} {e : ℤ}

theorem scale_round_le (d : Decimal) : (round d).scale ≤ 4 := by
  rw [round, Decimal.roundTo, places]
  split
  · assumption
  · exact le_rfl

theorem round_of_scale_le (h : d.scale ≤ 4) : round d = d := dif_pos h

theorem scale_round_eq_zero_iff (d : Decimal) : (round d).scale = 0 ↔ d.scale = 0 := by
  rcases Nat.lt_or_ge 4 d.scale with hlarge | hsmall
  · have hscale : (round d).scale = 4 := by
      rw [round, Decimal.roundTo, dif_neg (by rw [places]; omega)]
      rfl
    omega
  · rw [round_of_scale_le hsmall]

/-- A rounded price that is a zero with a minus sign is the price itself. -/
theorem isNegativeZero_of_round (h : (round d).IsNegativeZero) : d.IsNegativeZero := by
  obtain ⟨hsign, hzero⟩ := h
  rw [round, Decimal.roundTo] at hsign hzero
  split at hsign
  · rename_i hscale
    rw [dif_pos hscale] at hzero
    exact ⟨hsign, hzero⟩
  · rename_i hscale
    rw [dif_neg hscale] at hzero
    simp only [Decimal.ofParts] at hsign hzero
    simp [hzero] at hsign

/-- The size of the double that is stored for a price. -/
def storedSize (d : Decimal) : ℚ := narrowMagnitude (round d).mantissa (round d).scale

theorem nearest_storedSize (d : Decimal) : nearest (storedSize d) = storedSize d :=
  nearest_narrowMagnitude _ (scale_round_le d)

theorem storedSize_nonneg (d : Decimal) : 0 ≤ storedSize d :=
  nearest_storedSize d ▸ nearest_nonneg _

theorem storedSize_le (d : Decimal) : storedSize d ≤ 2 ^ 96 := by
  have hmantissa : (round d).mantissa < 2 ^ 96 := (round d).mantissa_lt
  rw [storedSize]
  rcases Nat.eq_zero_or_pos (round d).scale with hzero | hpos
  · rw [hzero, narrowMagnitude, if_pos rfl]
    refine nearest_le_of_le (Nat.cast_nonneg _) ?_ (by exact_mod_cast hmantissa.le)
    exact_mod_cast representable_two_zpow (k := (96 : ℕ)) (by norm_num)
  · have hle := narrowMagnitude_le_of_scale_pos hmantissa hpos (scale_round_le d)
    exact hle.trans (by norm_num)

theorem nearest_storedSize_lt (d : Decimal) : nearest (storedSize d) < 2 ^ (1000 : ℤ) := by
  rw [nearest_storedSize]
  refine (storedSize_le d).trans_lt ?_
  exact_mod_cast pow_lt_pow_right₀ (one_lt_two (α := ℚ)) (by norm_num : 96 < 1000)

/-- What is stored for a price is a number. -/
theorem isFinite_toStored (d : Decimal) : (toStored d).IsFinite :=
  isFinite_ofMagnitude _ (storedSize_nonneg d) (nearest_storedSize_lt d)

theorem storedSize_of_mantissa_eq_zero (h : (round d).mantissa = 0) : storedSize d = 0 := by
  rw [storedSize, h, narrowMagnitude_of_whole (scale_round_le d) (Nat.zero_mod _), Nat.cast_zero,
    zero_div, nearest_zero]

/-- A decimal is a whole multiple of the last place of any more digits. -/
theorem exists_mantissa_div_eq (n scale : ℕ) {ε : ℤ} (hε : ε + scale ≤ 0) :
    ∃ k : ℕ, (n : ℚ) / 10 ^ scale = k * (10 : ℚ) ^ ε := by
  rw [div_eq_mul_inv, ← zpow_natCast, ← zpow_neg]
  exact exists_eq_mul_of_le (by omega) n

/-- Unless it is zero a decimal narrows with its own sign. -/
theorem narrowSign_of_mantissa_pos (h : 0 < d.mantissa) : narrowSign d = d.negative := by
  simp [narrowSign, h.ne']

/-- The double that is stored for a price which is not zero. -/
structure StoredAs (d : Decimal) (m : ℕ) (e : ℤ) : Prop where
  canonical : Canonical m e
  kind : (toStored d).kind = .finite (round d).negative m e
  size : storedSize d = m * (2 : ℚ) ^ e

theorem exists_storedAs (h : 0 < (round d).mantissa) : ∃ m e, StoredAs d m e := by
  have hlow : (10 : ℚ) ^ (-4 : ℤ) ≤ storedSize d := le_narrowMagnitude h (scale_round_le d)
  obtain ⟨m, e, hkind, hsize, hm⟩ :=
    kind_ofMagnitude (round d).negative (storedSize_nonneg d) (nearest_storedSize_lt d)
  rw [nearest_storedSize] at hsize
  have hpos : 0 < storedSize d := lt_of_lt_of_le (by positivity) hlow
  refine ⟨m, e, hm.resolve_left ?_, ?_, hsize⟩
  · rintro rfl
    simp [hsize] at hpos
  · rw [toStored, narrow, narrowSign_of_mantissa_pos h]
    exact hkind

theorem ofStored_of_kind {x : Binary64} {negative : Bool} (hkind : x.kind = .finite negative m e)
    (h : (shortest m e).Fits) : ofStored x = .ok (h.toDecimal negative) := by
  rw [ofStored, if_pos (isFinite_of_kind hkind), read_toText hkind h]

theorem toStored_of_zero (h : (round d).mantissa = 0) :
    toStored d = ofMagnitude (narrowSign (round d)) 0 :=
  congrArg (ofMagnitude _) (storedSize_of_mantissa_eq_zero h)

/-- What is stored for zero is read as zero, without a sign. -/
theorem ofStored_toStored_of_zero (h : (round d).mantissa = 0) :
    ofStored (toStored d) = .ok .zero := by
  rw [toStored_of_zero h]
  cases narrowSign (round d) <;> decide +kernel

namespace StoredAs

variable (h : StoredAs d m e)

include h

theorem contains_of_nearest_eq {y : ℚ} (hy : 0 < y) (heq : nearest y = storedSize d) :
    (neighbourhood m e).contains y = true :=
  (nearest_eq_iff_contains h.canonical hy).mp (heq.trans h.size)

/-- The shortest digits do not go past a place on which a number stands that is stored as the same. -/
theorem le_exponent_shortest {k : ℕ} {ε : ℤ} (heq : nearest (k * (10 : ℚ) ^ ε) = storedSize d)
    (hε : (10 : ℚ) ^ ε ≤ storedSize d) : ε ≤ (shortest m e).exponent := by
  have hpos : 0 < storedSize d := lt_of_lt_of_le (by positivity) hε
  have hkpos : 0 < (k : ℚ) * 10 ^ ε := by
    refine lt_of_le_of_ne (by positivity) fun hzero => ?_
    rw [← hzero, nearest_zero] at heq
    exact hpos.ne heq
  rw [h.size] at hε
  exact Binary64.le_exponent_shortest h.canonical (h.contains_of_nearest_eq hkpos heq) hε

theorem mantissa_pos : 0 < (round d).mantissa := by
  refine Nat.pos_of_ne_zero fun hzero => ?_
  have hsize := h.size
  have hm := h.canonical.pos
  rw [storedSize_of_mantissa_eq_zero hzero] at hsize
  exact (mul_pos (by exact_mod_cast hm : (0 : ℚ) < m) (by positivity)).ne hsize

theorem four_digits : -4 ≤ (shortest m e).exponent := by
  have hscale := scale_round_le d
  obtain ⟨k, hk⟩ := exists_mantissa_div_eq (narrowCount (round d).mantissa (round d).scale)
    (round d).scale (by omega : -4 + ((round d).scale : ℤ) ≤ 0)
  refine h.le_exponent_shortest (k := k) ?_ (le_narrowMagnitude h.mantissa_pos hscale)
  rw [← hk, ← narrowMagnitude_eq _ hscale, storedSize]

/-- What is stored is read as the shortest digits unless these denote too large a number. -/
theorem ofStored_toStored (hlt : (shortest m e).value < 2 ^ 96) :
    ∃ hfits : (shortest m e).Fits, ofStored (toStored d) = .ok (hfits.toDecimal (round d).negative) := by
  have hlow := h.four_digits
  have hfits := fits_shortest h.canonical (by omega) hlt
  exact ⟨hfits, ofStored_of_kind h.kind hfits⟩

/-- The shortest digits are those of a decimal of four fraction digits. -/
theorem exists_value_eq : ∃ k : ℕ, (shortest m e).value = k * (10 : ℚ) ^ (-4 : ℤ) := by
  have hlow := h.four_digits
  refine ⟨(shortest m e).digits * 10 ^ ((shortest m e).exponent + 4).toNat, ?_⟩
  rw [Digits.value, tenPower_eq_zpow]
  push_cast
  rw [mul_assoc, ← zpow_natCast, ← zpow_add₀ (by norm_num)]
  congr 2
  omega

/-- Around a double that is not large there is one decimal of four fraction digits. -/
theorem eq_of_contains (hlt : storedSize d < 2 ^ 38) {j k : ℕ}
    (hj : (neighbourhood m e).contains (j * (10 : ℚ) ^ (-4 : ℤ)) = true)
    (hk : (neighbourhood m e).contains (k * (10 : ℚ) ^ (-4 : ℤ)) = true) : j = k := by
  have hexponent : e + 52 < (38 : ℕ) := h.canonical.exponent_lt (by norm_num) (by
    rw [zpow_natCast, ← h.size]
    exact hlt)
  have hunit : (2 : ℚ) ^ e < 10 ^ (-4 : ℤ) :=
    calc (2 : ℚ) ^ e ≤ 2 ^ (-15 : ℤ) := zpow_le_zpow_right₀ one_le_two (by push_cast at hexponent; omega)
      _ < 10 ^ (-4 : ℤ) := by norm_num
  have hdist := (abs_sub_le_of_contains hj hk).trans_lt hunit
  rw [← sub_mul, abs_mul, abs_of_pos (by positivity : (0 : ℚ) < 10 ^ (-4 : ℤ)),
    mul_lt_iff_lt_one_left (by positivity)] at hdist
  have hwidth : |(j : ℤ) - k| < 1 := by exact_mod_cast hdist
  rw [Int.abs_lt_one_iff] at hwidth
  omega

/-- The shortest digits denote no decimal of four fraction digits but the one that was stored. -/
theorem value_shortest (hlt : storedSize d < 2 ^ 38) {n scale : ℕ} (hscale : scale ≤ 4) (hn : 0 < n)
    (heq : nearest ((n : ℚ) / 10 ^ scale) = storedSize d) :
    (shortest m e).value = (n : ℚ) / 10 ^ scale := by
  obtain ⟨j, hj⟩ := h.exists_value_eq
  obtain ⟨k, hk⟩ := exists_mantissa_div_eq n scale (by omega : -4 + (scale : ℤ) ≤ 0)
  have hcontains := contains_shortest h.canonical
  have hcontains' := h.contains_of_nearest_eq (by positivity) heq
  rw [hj] at hcontains ⊢
  rw [hk] at hcontains' ⊢
  rw [h.eq_of_contains hlt hcontains hcontains']

end StoredAs

/-- A price below a hundred billion is read back as it was rounded. -/
theorem value_ofStored_toStored (hd : |(round d).value| < 100000000000) :
    ∃ p, ofStored (toStored d) = .ok p ∧ p.value = (round d).value := by
  have hscale := scale_round_le d
  rw [Decimal.abs_value, div_lt_iff₀ (by positivity)] at hd
  have hd : (round d).mantissa < 100000000000 * 10 ^ (round d).scale := by exact_mod_cast hd
  have hten : 10 ^ (round d).scale ≤ 10000 := tenPow_le hscale
  have hsize : storedSize d = nearest ((round d).mantissa / 10 ^ (round d).scale) :=
    narrowMagnitude_of_lt (k := 37) hscale (by omega) (by omega)
  have hvalue : ((round d).mantissa : ℚ) / 10 ^ (round d).scale ≤ 2 ^ (37 : ℤ) := by
    rw [div_le_iff₀ (by positivity)]
    exact_mod_cast (by omega : (round d).mantissa ≤ 137438953472 * 10 ^ (round d).scale)
  rcases Nat.eq_zero_or_pos (round d).mantissa with hzero | hpos
  · refine ⟨.zero, ofStored_toStored_of_zero hzero, ?_⟩
    simp [Decimal.value_eq, Decimal.zero, Decimal.ofParts, hzero]
  · obtain ⟨m, e, hstored⟩ := exists_storedAs hpos
    have hlt : storedSize d < 2 ^ 38 := by
      have hle := nearest_le_of_le (by positivity) (representable_two_zpow (by norm_num)) hvalue
      rw [hsize]
      exact hle.trans_lt (by norm_num)
    have hshortest := hstored.value_shortest hlt hscale hpos hsize.symm
    obtain ⟨hfits, hread⟩ := hstored.ofStored_toStored (by
      rw [hshortest]
      exact hvalue.trans_lt (by norm_num))
    refine ⟨_, hread, ?_⟩
    rw [hfits.value_toDecimal, hshortest, Decimal.value_eq]

end Price

end PriceArchive
