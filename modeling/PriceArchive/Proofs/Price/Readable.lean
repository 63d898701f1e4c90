import PriceArchive.Proofs.Price.ReadBack

namespace PriceArchive

open Binary64

namespace Price

variable {d : Decimal} {m : ℕ} {e : ℤ}

/-- The stored double can be read as a price. -/
def Readable (x : Binary64) : Prop := ∃ p, ofStored x = .ok p

/-- The price is a whole number that rounds to the first number too large for a decimal. -/
def Oversize (d : Decimal) : Prop := d.scale = 0 ∧ 2 ^ 96 - 2 ^ 42 ≤ d.mantissa

instance (d : Decimal) : Decidable (Oversize d) := inferInstanceAs (Decidable (_ ∧ _))

/-- Half a unit below two to the 96th is where rounding begins to reach it. -/
theorem nearest_eq_limit_iff {n : ℕ} (hn : n < 2 ^ 96) :
    nearest n = 2 ^ 96 ↔ 2 ^ 96 - 2 ^ 42 ≤ n := by
  rcases Nat.eq_zero_or_pos n with rfl | hpos
  · norm_num [nearest_zero]
  have hpos : (0 : ℚ) < n := by exact_mod_cast hpos
  have hn : (n : ℚ) < 2 ^ 96 := by exact_mod_cast hn
  have hunits : (n : ℚ) / 2 ^ 44 * (2 : ℚ) ^ (44 : ℤ) = n := by
    have hpow : (2 : ℚ) ^ (44 : ℤ) = 2 ^ 44 := zpow_natCast 2 44
    rw [hpow, div_mul_cancel₀ _ (by norm_num)]
  have hlowest := nearest_eq_lowest_iff (e := 44) (t := (n : ℚ) / 2 ^ 44) (by norm_num)
    (by positivity) (by
      rw [div_lt_iff₀ (by positivity)]
      norm_num at hn ⊢
      exact hn)
  rw [hunits, le_div_iff₀ (by positivity)] at hlowest
  norm_num at hlowest ⊢
  rw [hlowest]

theorem storedSize_lt_iff (d : Decimal) : storedSize d < 2 ^ 96 ↔ ¬ Oversize d := by
  rcases Nat.eq_zero_or_pos d.scale with hzero | hpos
  · have hsize : storedSize d = nearest d.mantissa := by
      rw [storedSize, round_of_scale_le (by omega), hzero, narrowMagnitude, if_pos rfl]
    have hle := storedSize_le d
    rw [Oversize, and_iff_right hzero, ← nearest_eq_limit_iff d.mantissa_lt, ← hsize]
    exact hle.lt_iff_ne
  · have hscale : 0 < (round d).scale := by
      rw [Nat.pos_iff_ne_zero, Ne, scale_round_eq_zero_iff]
      exact hpos.ne'
    have hle : storedSize d ≤ 2 ^ 93 :=
      narrowMagnitude_le_of_scale_pos (round d).mantissa_lt hscale (scale_round_le d)
    exact iff_of_true (hle.trans_lt (by norm_num)) fun h => hpos.ne' h.1

/-- The shortest digits of a double that a decimal can hold denote a number that it can hold. -/
theorem StoredAs.value_shortest_lt (h : StoredAs d m e) (hlt : storedSize d < 2 ^ 96) :
    (shortest m e).value < 2 ^ 96 := by
  have hexponent : e + 52 < (96 : ℕ) := h.canonical.exponent_lt (by norm_num) (by
    rw [zpow_natCast, ← h.size]
    exact hlt)
  have hunit : (2 : ℚ) ^ e ≤ 2 ^ (43 : ℤ) :=
    zpow_le_zpow_right₀ one_le_two (by push_cast at hexponent; omega)
  have hm := h.canonical.cast_le
  calc (shortest m e).value
    _ ≤ (m + 1 / 2) * 2 ^ e := (bounds_of_contains (contains_shortest h.canonical)).2
    _ ≤ (2 ^ 53 - 1 / 2) * 2 ^ (43 : ℤ) := by
      gcongr
      linarith
    _ < 2 ^ 96 := by norm_num

theorem not_readable_limit (negative : Bool) :
    ofStored (ofMagnitude negative 79228162514264337593543950336) =
      .error (.unreadable (ofMagnitude negative 79228162514264337593543950336) .tooManyDigits) := by
  cases negative <;> decide +kernel

/-- What is stored for a price can be read exactly when the price is not oversize. -/
theorem readable_iff (d : Decimal) : Readable (toStored d) ↔ ¬ Oversize d := by
  rw [← storedSize_lt_iff]
  constructor
  · rintro ⟨p, hp⟩
    refine lt_of_le_of_ne (storedSize_le d) fun hlimit => ?_
    have hstored : toStored d =
        ofMagnitude (narrowSign (round d)) 79228162514264337593543950336 := by
      refine ofMagnitude_congr _ ?_
      change nearest (storedSize d) = _
      rw [hlimit]
      norm_num
    rw [hstored, not_readable_limit] at hp
    cases hp
  · intro hlt
    rcases Nat.eq_zero_or_pos (round d).mantissa with hzero | hpos
    · exact ⟨_, ofStored_toStored_of_zero hzero⟩
    · obtain ⟨m, e, hstored⟩ := exists_storedAs hpos
      obtain ⟨hfits, hread⟩ := hstored.ofStored_toStored (hstored.value_shortest_lt hlt)
      exact ⟨_, hread⟩

end Price

end PriceArchive
