import PriceArchive.Proofs.Number.Neighbourhood

namespace PriceArchive

namespace Binary64

section Fields

variable {exponent fraction : ℕ}

theorem fractionLimit_eq : fractionLimit = 4503599627370496 := by decide

theorem toNat_ofFields (negative : Bool) (hexponent : exponent < 2048)
    (hfraction : fraction < fractionLimit) :
    (ofFields negative exponent fraction).bits.toNat =
      (if negative then 9223372036854775808 else 0) + exponent * 4503599627370496 + fraction := by
  have hsign : Nat.pow 2 63 = 9223372036854775808 := by decide
  rw [fractionLimit_eq] at hfraction
  rw [ofFields, UInt64.toNat_ofNat', hsign, fractionLimit_eq]
  apply Nat.mod_eq_of_lt
  split <;> omega

theorem kind_ofFields (negative : Bool) (hexponent : exponent < 2047)
    (hfraction : fraction < fractionLimit) :
    (ofFields negative exponent fraction).kind =
      if exponent = 0 then .finite negative fraction (-1074)
      else .finite negative (2 ^ 52 + fraction) (exponent - 1075) := by
  have hlimit : exponent < 2048 := by omega
  have htoNat := toNat_ofFields negative hlimit hfraction
  have hsign : Nat.pow 2 63 = 9223372036854775808 := by decide
  have hfraction' := fractionLimit_eq ▸ hfraction
  have hsignBit : (ofFields negative exponent fraction).signBit = negative := by
    rw [signBit, htoNat, hsign]
    cases negative <;> simp <;> omega
  have hexponentField : (ofFields negative exponent fraction).exponentField = exponent := by
    rw [exponentField, htoNat, fractionLimit_eq]
    split <;> omega
  have hfractionField : (ofFields negative exponent fraction).fractionField = fraction := by
    rw [fractionField, htoNat, fractionLimit_eq]
    split <;> omega
  rw [kind, hexponentField, hfractionField, hsignBit, if_neg (by omega)]
  rfl

end Fields

variable {x y : ℚ} {negative : Bool}

/-- A positive number that is not rounded, by its significand and exponent. -/
theorem canonical_of_nearest_eq (hx : 0 < x) (h : nearest x = x) :
    Canonical (unitCount x) (unitExponent x) ∧ x = unitCount x * (2 : ℚ) ^ unitExponent x := by
  have hunit : (0 : ℚ) < 2 ^ unitExponent x := by positivity
  have hgrid := hasUnit hx
  have heq : x = unitCount x * (2 : ℚ) ^ unitExponent x := h.symm.trans (nearest_of_pos hx)
  refine ⟨?_, heq⟩
  generalize unitCount x = m at heq
  generalize unitExponent x = e at heq hunit hgrid
  subst heq
  obtain ⟨hmin, hlt, hle⟩ := hasUnit_mul_unit_iff.mp hgrid
  have hpos : (0 : ℚ) < m := pos_of_mul_pos_left hx hunit.le
  exact ⟨by exact_mod_cast hpos, by exact_mod_cast hlt, hmin, by exact_mod_cast hle⟩

/-- The exponent of a double below a power of two. -/
theorem Canonical.exponent_lt {m : ℕ} {e k : ℤ} (h : Canonical m e) (hk : -1022 < k)
    (hlt : m * (2 : ℚ) ^ e < 2 ^ k) : e + 52 < k := by
  rcases h.full with hfull | hmin
  · have hfull : (2 : ℚ) ^ 52 ≤ m := by exact_mod_cast hfull
    have hpow : (2 : ℚ) ^ (e + 52) < 2 ^ k :=
      calc (2 : ℚ) ^ (e + 52) = 2 ^ 52 * 2 ^ e := by
            rw [zpow_add₀ two_ne_zero, mul_comm]
            norm_num
        _ ≤ m * 2 ^ e := by gcongr
        _ < 2 ^ k := hlt
    exact (zpow_lt_zpow_iff_right₀ one_lt_two).mp hpow
  · omega

/-- The double nearest to a number that is not too large, taken apart. -/
theorem kind_ofMagnitude (negative : Bool) (hx : 0 ≤ x) (hlt : nearest x < 2 ^ (1000 : ℤ)) :
    ∃ m e, (ofMagnitude negative x).kind = .finite negative m e ∧
      nearest x = m * (2 : ℚ) ^ e ∧ (m = 0 ∨ Canonical m e) := by
  rw [ofMagnitude]
  rcases eq_or_ne (nearest x) 0 with hzero | hne
  · refine ⟨0, -1074, ?_, by simp [hzero], .inl rfl⟩
    rw [if_pos hzero, kind_ofFields negative (by decide) (by decide)]
    rfl
  have hpos : 0 < nearest x := lt_of_le_of_ne (nearest_nonneg x) hne.symm
  obtain ⟨hcanonical, heq⟩ :=
    canonical_of_nearest_eq hpos ((representable_nearest hx).nearest_eq hpos.le)
  have hexponent := hcanonical.exponent_lt (by norm_num) (heq ▸ hlt)
  have hmin := hcanonical.min_le
  have hm := hcanonical.lt
  have hlimit := fractionLimit_eq
  refine ⟨unitCount (nearest x), unitExponent (nearest x), ?_, heq, .inr hcanonical⟩
  dsimp only
  rw [if_neg hne, if_neg (by unfold exponentLimit; omega)]
  split
  · rename_i hsub
    rw [kind_ofFields negative (by decide) hsub, if_pos rfl,
      hcanonical.full.resolve_left (by omega)]
  · have hsignificand : 2 ^ 52 + (unitCount (nearest x) - fractionLimit) = unitCount (nearest x) := by
      omega
    have hunit : ((unitExponent (nearest x) + 1075).toNat : ℤ) - 1075 = unitExponent (nearest x) := by
      omega
    rw [kind_ofFields negative (by omega) (by omega), if_neg (by omega), hsignificand, hunit]

theorem isFinite_of_kind {d : Binary64} {m : ℕ} {e : ℤ} (h : d.kind = .finite negative m e) :
    d.IsFinite := by
  intro hfield
  rw [kind, if_pos hfield] at h
  split at h <;> cases h

theorem isFinite_ofMagnitude (negative : Bool) (hx : 0 ≤ x) (hlt : nearest x < 2 ^ (1000 : ℤ)) :
    (ofMagnitude negative x).IsFinite := by
  obtain ⟨m, e, hkind, -, -⟩ := kind_ofMagnitude negative hx hlt
  exact isFinite_of_kind hkind

/-- The number that the nearest double denotes. -/
theorem value?_ofMagnitude (negative : Bool) (hx : 0 ≤ x) (hlt : nearest x < 2 ^ (1000 : ℤ)) :
    (ofMagnitude negative x).value? = some (if negative then -nearest x else nearest x) := by
  obtain ⟨m, e, hkind, heq, -⟩ := kind_ofMagnitude negative hx hlt
  rw [value?, hkind, heq]
  dsimp only
  rw [twoPower_eq_zpow]

/-- Numbers that round to the same have the same double. -/
theorem ofMagnitude_congr (negative : Bool) (h : nearest x = nearest y) :
    ofMagnitude negative x = ofMagnitude negative y := by
  rw [ofMagnitude, ofMagnitude, h]

end Binary64

end PriceArchive
