import PriceArchive.Proofs.Price.Bars
import PriceArchive.Proofs.Price.Parts

namespace PriceArchive

/-- One finite double is at most another. -/
def Binary64.AtMost (x y : Binary64) : Prop := ∃ p ∈ x.value?, ∃ q ∈ y.value?, p ≤ q

instance (x y : Binary64) : Decidable (x.AtMost y) :=
  inferInstanceAs (Decidable (∃ p ∈ x.value?, ∃ q ∈ y.value?, p ≤ q))

namespace Price

open Binary64

variable {a b d : Decimal}

/-- With `digits` fraction digits a price would be stored as the double that it is stored as. -/
def SteadyAt (d : Decimal) (digits : ℕ) : Prop := rescale (parts d) digits = storedSize d

instance (d : Decimal) (digits : ℕ) : Decidable (SteadyAt d digits) :=
  inferInstanceAs (Decidable (_ = _))

/-- The different counts of fraction digits of two prices do not matter: one of them is stored as with
the count of the other, or is at most two to the 38th in size. -/
def Aligned (a b : Decimal) : Prop :=
  SteadyAt a (fractionDigits b) ∨ SteadyAt b (fractionDigits a) ∨
    |a.value| ≤ 2 ^ 38 ∨ |b.value| ≤ 2 ^ 38

instance (a b : Decimal) : Decidable (Aligned a b) := inferInstanceAs (Decidable (_ ∨ _))

theorem Aligned.symm (h : Aligned a b) : Aligned b a := by
  obtain h | h | h | h := h
  · exact .inr (.inl h)
  · exact .inl h
  · exact .inr (.inr (.inr h))
  · exact .inr (.inr (.inl h))

theorem aligned_of_fractionDigits_eq (h : fractionDigits a = fractionDigits b) : Aligned a b := by
  refine .inl ?_
  rw [SteadyAt, ← h, storedSize_eq_rescale a]

section Size

variable {k : ℕ}

theorem mantissa_round_le (h : |d.value| ≤ 2 ^ k) :
    (round d).mantissa ≤ 2 ^ k * 10 ^ (round d).scale := by
  have hticks := ticks_le (n := 2 ^ k) (by exact_mod_cast h)
  have hvalue : ((round d).mantissa : ℚ) / 10 ^ (round d).scale ≤ 2 ^ k := by
    rw [mantissa_round_div, div_le_iff₀ (by positivity)]
    exact_mod_cast hticks
  rw [div_le_iff₀ (by positivity)] at hvalue
  exact_mod_cast hvalue

theorem le_mantissa_round (h : 2 ^ k ≤ |d.value|) :
    2 ^ k * 10 ^ (round d).scale ≤ (round d).mantissa := by
  have hticks := le_ticks (n := 2 ^ k) (by exact_mod_cast h)
  have hvalue : (2 : ℚ) ^ k ≤ (round d).mantissa / 10 ^ (round d).scale := by
    rw [mantissa_round_div, le_div_iff₀ (by positivity)]
    exact_mod_cast hticks
  rw [le_div_iff₀ (by positivity)] at hvalue
  exact_mod_cast hvalue

/-- A price that is not large is stored as the double nearest to it. -/
theorem storedSize_of_le (h : |d.value| ≤ 2 ^ 38) : storedSize d = nearest (ticks d / 10 ^ 4) := by
  rw [← mantissa_round_div]
  rcases (mantissa_round_le h).eq_or_lt with hlimit | hlt
  · have hwhole : (round d).mantissa % tenPow (round d).scale = 0 := by
      rw [hlimit]
      exact Nat.mul_mod_left _ _
    exact narrowMagnitude_of_whole (scale_round_le d) hwhole
  · refine narrowMagnitude_of_lt (scale_round_le d) ?_ hlt
    have hpow : 10 ^ (round d).scale ≤ 10000 := tenPow_le (scale_round_le d)
    omega

/-- A price that is not large is not stored as a larger one. -/
theorem storedSize_le_of_le (ha : |a.value| ≤ 2 ^ 38) (hab : |a.value| ≤ |b.value|) :
    storedSize a ≤ storedSize b := by
  rcases le_or_gt |b.value| (2 ^ 38) with hb | hb
  · rw [storedSize_of_le ha, storedSize_of_le hb]
    refine nearest_mono (by positivity) ?_
    gcongr
    exact ticks_mono hab
  · exact (narrowMagnitude_le_two_pow (by norm_num) (scale_round_le a) (mantissa_round_le ha)).trans
      (two_pow_le_narrowMagnitude (scale_round_le b) (le_mantissa_round hb.le))

/-- The sizes of aligned prices are stored in their order. -/
theorem Aligned.storedSize_le (h : Aligned a b) (hab : |a.value| ≤ |b.value|) :
    storedSize a ≤ storedSize b := by
  obtain hsteady | hsteady | ha | hb := h
  · rw [← hsteady, storedSize_eq_rescale b]
    exact rescale_mono (parts_nonneg a) (parts_mono hab) _
  · rw [← hsteady, storedSize_eq_rescale a]
    exact rescale_mono (parts_nonneg a) (parts_mono hab) _
  · exact storedSize_le_of_le ha hab
  · exact storedSize_le_of_le (hab.trans hb) hab

/-- Prices of one size are stored with one size exactly if they are aligned. -/
theorem storedSize_eq_iff (h : |a.value| = |b.value|) :
    storedSize a = storedSize b ↔ Aligned a b := by
  constructor
  · intro heq
    have hparts : parts a = parts b := le_antisymm (parts_mono h.le) (parts_mono h.ge)
    refine .inl ?_
    rw [SteadyAt, hparts, ← storedSize_eq_rescale, heq]
  · exact fun haligned => le_antisymm (haligned.storedSize_le h.le) (haligned.symm.storedSize_le h.ge)

end Size

section Signed

theorem value_of_negative (h : d.negative = true) : d.value ≤ 0 := by
  rw [Decimal.value_eq, if_pos h, neg_nonpos]
  positivity

theorem value_of_not_negative (h : d.negative = false) : 0 ≤ d.value := by
  rw [Decimal.value_eq, h, if_neg Bool.false_ne_true]
  positivity

theorem mantissa_round_eq_zero_iff (d : Decimal) : (round d).mantissa = 0 ↔ ticks d = 0 := by
  rw [← mantissa_round_mul d, Nat.mul_eq_zero, or_iff_left (tenPow_pos _).ne']

/-- A sign is only lost with all digits. -/
theorem negative_round (h : ticks d ≠ 0) : (round d).negative = d.negative := by
  have hmantissa := mt (mantissa_round_eq_zero_iff d).mp h
  rw [round, Decimal.roundTo] at hmantissa ⊢
  split
  · rfl
  · rename_i hscale
    rw [dif_neg hscale] at hmantissa
    simpa [Decimal.ofParts] using fun _ => hmantissa

theorem narrowSign_round (h : ticks d ≠ 0) : narrowSign (round d) = d.negative := by
  rw [narrowSign_of_mantissa_pos (Nat.pos_of_ne_zero (mt (mantissa_round_eq_zero_iff d).mp h)),
    negative_round h]

/-- A price that is rounded to zero has no sign then, unless it was zero before. -/
theorem narrowSign_round_of_ticks_eq_zero (h : ticks d = 0) (hne : d.value ≠ 0) :
    narrowSign (round d) = false := by
  have hmantissa := (mantissa_round_eq_zero_iff d).mpr h
  have hpos : d.mantissa ≠ 0 := by
    intro hzero
    rw [Decimal.value_eq, hzero, Nat.cast_zero, zero_div, neg_zero, ite_self] at hne
    exact hne rfl
  rw [round, Decimal.roundTo] at hmantissa ⊢
  split at hmantissa
  · exact absurd hmantissa hpos
  · rename_i hscale
    rw [dif_neg hscale]
    simp only [Decimal.ofParts] at hmantissa
    simp [narrowSign, Decimal.ofParts, hmantissa]

theorem storedSize_of_ticks_eq_zero (h : ticks d = 0) : storedSize d = 0 :=
  storedSize_of_mantissa_eq_zero ((mantissa_round_eq_zero_iff d).mpr h)

/-- The number that is stored for a price. -/
theorem value?_toStored (d : Decimal) :
    (toStored d).value? = some (if d.negative then -storedSize d else storedSize d) := by
  have hvalue : (toStored d).value? =
      some (if narrowSign (round d) then -nearest (storedSize d) else nearest (storedSize d)) :=
    value?_ofMagnitude _ (storedSize_nonneg d) (nearest_storedSize_lt d)
  rw [hvalue, nearest_storedSize]
  by_cases hzero : ticks d = 0
  · simp [storedSize_of_ticks_eq_zero hzero]
  · rw [narrowSign_round hzero]

theorem atMost_toStored_iff : (toStored a).AtMost (toStored b) ↔
    (if a.negative then -storedSize a else storedSize a) ≤
      if b.negative then -storedSize b else storedSize b := by
  simp [AtMost, value?_toStored]

/-- Prices whose sizes are stored in their order are stored in theirs. -/
theorem atMost_of_storedSize_le (hle : |a.value| ≤ |b.value| → storedSize a ≤ storedSize b)
    (hge : |b.value| ≤ |a.value| → storedSize b ≤ storedSize a) (h : a.value ≤ b.value) :
    (toStored a).AtMost (toStored b) := by
  have hapos := storedSize_nonneg a
  have hbpos := storedSize_nonneg b
  rw [atMost_toStored_iff]
  cases ha : a.negative <;> cases hb : b.negative
  · have := value_of_not_negative ha
    have := value_of_not_negative hb
    simpa using hle (by rwa [abs_of_nonneg ‹_›, abs_of_nonneg ‹_›])
  · -- Both prices are zero.
    have hazero : a.value = 0 := le_antisymm (h.trans (value_of_negative hb)) (value_of_not_negative ha)
    have hbzero : b.value = 0 := le_antisymm (value_of_negative hb) ((value_of_not_negative ha).trans h)
    have hsmall := hle (by rw [hazero, hbzero])
    rw [storedSize_of_ticks_eq_zero (ticks_of_value_eq_zero hbzero)] at hsmall ⊢
    simpa using hsmall
  · simp only [if_true, Bool.false_eq_true, if_false]
    linarith
  · have := value_of_negative ha
    have := value_of_negative hb
    simpa using hge (by rw [abs_of_nonpos ‹_›, abs_of_nonpos ‹_›]; linarith)

theorem Aligned.atMost (h : Aligned a b) (hab : a.value ≤ b.value) :
    (toStored a).AtMost (toStored b) :=
  atMost_of_storedSize_le h.storedSize_le h.symm.storedSize_le hab

theorem negative_eq_of_value_eq (h : a.value = b.value) (hne : a.value ≠ 0) :
    a.negative = b.negative := by
  cases ha : a.negative <;> cases hb : b.negative
  · rfl
  · exact absurd (le_antisymm (h.trans_le (value_of_negative hb)) (value_of_not_negative ha)) hne
  · exact absurd (le_antisymm (value_of_negative ha) ((value_of_not_negative hb).trans_eq h.symm)) hne
  · rfl

/-- Prices that are the same number are in order both ways only if what is stored has one size. -/
theorem storedSize_eq_of_atMost (h : a.value = b.value) (hle : (toStored a).AtMost (toStored b))
    (hge : (toStored b).AtMost (toStored a)) : storedSize a = storedSize b := by
  rcases eq_or_ne a.value 0 with hzero | hne
  · rw [storedSize_of_ticks_eq_zero (ticks_of_value_eq_zero hzero),
      storedSize_of_ticks_eq_zero (ticks_of_value_eq_zero (h ▸ hzero))]
  rw [atMost_toStored_iff, negative_eq_of_value_eq h hne] at hle hge
  cases hb : b.negative <;> simp only [hb, if_true, Bool.false_eq_true, if_false] at hle hge
  · exact le_antisymm hle hge
  · exact le_antisymm (neg_le_neg_iff.mp hge) (neg_le_neg_iff.mp hle)

theorem atMost_self (d : Decimal) : (toStored d).AtMost (toStored d) := atMost_toStored_iff.mpr le_rfl

/-- Prices that are the same number are narrowed with one sign unless they are zero. -/
theorem narrowSign_round_eq (h : a.value = b.value) (hne : a.value ≠ 0) :
    narrowSign (round a) = narrowSign (round b) := by
  have hticks : ticks a = ticks b := by rw [ticks, ticks, h]
  by_cases hzero : ticks a = 0
  · rw [narrowSign_round_of_ticks_eq_zero hzero hne,
      narrowSign_round_of_ticks_eq_zero (hticks ▸ hzero) (h ▸ hne)]
  · rw [narrowSign_round hzero, narrowSign_round (hticks ▸ hzero), negative_eq_of_value_eq h hne]

theorem toStored_eq_of_storedSize_eq (hsign : narrowSign (round a) = narrowSign (round b))
    (hsize : storedSize a = storedSize b) : toStored a = toStored b := by
  change ofMagnitude (narrowSign (round a)) (storedSize a) = ofMagnitude (narrowSign (round b)) (storedSize b)
  rw [hsign, hsize]

/-- The sign with which a zero is narrowed is that of its double. -/
theorem narrowSign_eq_of_toStored_eq (ha : ticks a = 0) (hb : ticks b = 0) (h : toStored a = toStored b) :
    narrowSign (round a) = narrowSign (round b) := by
  have hsigns : ofMagnitude true 0 ≠ ofMagnitude false 0 := by decide +kernel
  rw [toStored_of_zero ((mantissa_round_eq_zero_iff a).mpr ha),
    toStored_of_zero ((mantissa_round_eq_zero_iff b).mpr hb)] at h
  cases hsa : narrowSign (round a) <;> cases hsb : narrowSign (round b) <;> rw [hsa, hsb] at h
  · exact absurd h.symm hsigns
  · exact absurd h hsigns

end Signed

/-- Of prices that are the same number the doubles are the same exactly if the prices are aligned and, in
case of zeros, narrowed with one sign; unless they are aligned the doubles are in order one way only. -/
theorem toStored_eq_iff (h : a.value = b.value) :
    (toStored a = toStored b ↔
        Aligned a b ∧ (a.value = 0 → narrowSign (round a) = narrowSign (round b))) ∧
      ((toStored a).AtMost (toStored b) ∧ (toStored b).AtMost (toStored a) ↔ Aligned a b) := by
  have hsizes : storedSize a = storedSize b ↔ Aligned a b := storedSize_eq_iff (by rw [h])
  refine ⟨⟨fun heq => ⟨?_, fun hzero => ?_⟩, fun ⟨haligned, hzero⟩ => ?_⟩, fun hboth => ?_, fun haligned => ?_⟩
  · have hself := atMost_self a
    refine hsizes.mp (storedSize_eq_of_atMost h ?_ ?_)
    · rwa [heq] at hself ⊢
    · rwa [heq] at hself ⊢
  · exact narrowSign_eq_of_toStored_eq (ticks_of_value_eq_zero hzero)
      (ticks_of_value_eq_zero (h ▸ hzero)) heq
  · refine toStored_eq_of_storedSize_eq ?_ (hsizes.mpr haligned)
    exact (eq_or_ne a.value 0).elim hzero (narrowSign_round_eq h)
  · exact hsizes.mp (storedSize_eq_of_atMost h hboth.1 hboth.2)
  · exact ⟨haligned.atMost h.le, haligned.symm.atMost h.ge⟩

/-- Prices are stored in the order of the numbers that they are, and the same number is stored as the
same double, where they are aligned: when they are narrowed with the same count of fraction digits, when
one of them is at most two to the 38th in size, or when the one is stored as it is with the count of the
other as well. Of prices that are the same number no others are stored alike, or in order both ways; only
of zeros one may be stored with a minus sign and another without. So a day whose prices are aligned with
its low and its high is stored with its opening and its closing between the two if it has them there. -/
theorem storing_keeps_order (a b : Decimal) (bar : Bar) (stored : StoredBar) :
    (Aligned a b → a.value ≤ b.value → (toStored a).AtMost (toStored b)) ∧
      (a.value = b.value →
        (toStored a = toStored b ↔
            Aligned a b ∧ (a.value = 0 → narrowSign (round a) = narrowSign (round b))) ∧
          ((toStored a).AtMost (toStored b) ∧ (toStored b).AtMost (toStored a) ↔ Aligned a b)) ∧
      (fractionDigits a = fractionDigits b → Aligned a b) ∧
      (bar.toStored = .ok stored →
        ∀ p x, (p, x) ∈ [(bar.opening, stored.opening), (bar.closing, stored.closing)] →
          (Aligned bar.low p → bar.low.value ≤ p.value → stored.low.AtMost x) ∧
            (Aligned p bar.high → p.value ≤ bar.high.value → x.AtMost stored.high)) := by
  refine ⟨Aligned.atMost, toStored_eq_iff, aligned_of_fractionDigits_eq, fun hbar p x hmem => ?_⟩
  obtain ⟨-, hprices⟩ := Bar.toStored_eq_ok_iff.mp hbar
  simp only [StoredBar.prices, Bar.prices, List.map_cons, List.map_nil, List.cons.injEq] at hprices
  obtain ⟨hopening, hhigh, hlow, hclosing, -, -⟩ := hprices
  have hx : x = toStored p := by
    simp only [List.mem_cons, List.not_mem_nil, or_false, Prod.mk.injEq] at hmem
    obtain ⟨rfl, rfl⟩ | ⟨rfl, rfl⟩ := hmem
    · exact hopening
    · exact hclosing
  rw [hx, hlow, hhigh]
  exact ⟨Aligned.atMost, Aligned.atMost⟩

theorem three_le_maxScale : 3 ≤ Decimal.maxScale := by decide

theorem four_le_maxScale : 4 ≤ Decimal.maxScale := by decide

/-- A number just above two to the 38th, written with three fraction digits and with four. -/
def threeDigits : Decimal := .ofParts false 274877906944004 3 (by decide) three_le_maxScale

def fourDigits : Decimal := .ofParts false 2748779069440040 4 (by decide) four_le_maxScale

/-- With a zero at its end the number is stored as the next larger double. -/
theorem storing_can_lose_order :
    ¬ ∀ a b : Decimal, a.value ≤ b.value → (toStored a).AtMost (toStored b) := by
  intro horder
  have hvalue : fourDigits.value ≤ threeDigits.value := by decide +kernel
  have hnot : ¬ (toStored fourDigits).AtMost (toStored threeDigits) := by decide +kernel
  exact hnot (horder _ _ hvalue)

/-- A number one thousandth larger, with three fraction digits and with four. -/
def threeDigitsNext : Decimal := .ofParts false 274877906944005 3 (by decide) three_le_maxScale

def fourDigitsNext : Decimal := .ofParts false 2748779069440050 4 (by decide) four_le_maxScale

/-- This number is stored alike in both forms, so a day may open and close with different ones. -/
theorem storing_keeps_order_next :
    Aligned threeDigitsNext fourDigitsNext ∧ toStored threeDigitsNext = toStored fourDigitsNext ∧
      ¬ Aligned threeDigits fourDigits ∧ toStored threeDigits ≠ toStored fourDigits ∧
      ∃ stored, (Bar.make threeDigitsNext fourDigitsNext threeDigitsNext fourDigitsNext 1).toStored =
        .ok stored ∧ stored.low.AtMost stored.closing ∧ stored.opening.AtMost stored.high := by
  let bar := Bar.make threeDigitsNext fourDigitsNext threeDigitsNext fourDigitsNext 1
  obtain ⟨stored, hstored⟩ : ∃ stored, bar.toStored = .ok stored := ⟨_, rfl⟩
  have haligned : Aligned threeDigitsNext fourDigitsNext := by decide +kernel
  have hnot : ¬ Aligned threeDigits fourDigits := by decide +kernel
  obtain ⟨-, hnext, -, hday⟩ := storing_keeps_order threeDigitsNext fourDigitsNext bar stored
  obtain ⟨-, hsame, -⟩ := storing_keeps_order threeDigits fourDigits bar stored
  obtain ⟨hlow, -⟩ := hday hstored bar.closing stored.closing (by simp)
  obtain ⟨-, hhigh⟩ := hday hstored bar.opening stored.opening (by simp)
  refine ⟨haligned, (hnext (by decide +kernel)).1.mpr ⟨haligned, by decide +kernel⟩, hnot, ?_, stored, hstored, ?_, ?_⟩
  · exact fun heq => hnot ((hsame (by decide +kernel)).1.mp heq).1
  · exact hlow haligned (by decide +kernel)
  · exact hhigh haligned (by decide +kernel)

end Price

end PriceArchive
