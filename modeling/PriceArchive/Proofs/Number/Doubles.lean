import PriceArchive.Proofs.Decimal.Reading
import PriceArchive.Proofs.Number.Bits
import PriceArchive.Proofs.Number.ShortestDigits

namespace PriceArchive

/-- The number that a decimal of some parts denotes. -/
theorem Decimal.value_ofParts (negative : Bool) {mantissa scale : ℕ}
    (hmantissa : mantissa < mantissaLimit) (hscale : scale ≤ maxScale) :
    (ofParts negative mantissa scale hmantissa hscale).value =
      if negative then -((mantissa : ℚ) / 10 ^ scale) else (mantissa : ℚ) / 10 ^ scale := by
  have hpow : ((tenPow scale : ℕ) : ℚ) = 10 ^ scale := Nat.cast_pow 10 scale
  rw [value, Rat.mkRat_eq_div, Int.cast_natCast]
  simp only [ofParts, hpow]
  rcases Nat.eq_zero_or_pos mantissa with rfl | hpos
  · simp
  · simp [hpos.ne']

namespace Binary64

/-- The mantissa of the decimal that digits stand for. -/
def Digits.mantissa (d : Digits) : ℕ := d.digits * tenPow d.exponent.toNat

/-- The scale of the decimal that digits stand for. -/
def Digits.scale (d : Digits) : ℕ := (-d.exponent).toNat

theorem Digits.toChars_eq (d : Digits) : d.toChars = Decimal.positional d.mantissa d.scale := by
  obtain ⟨digits, exponent⟩ := d
  cases exponent with
  | ofNat k =>
    have hzero : (-Int.ofNat k).toNat = 0 := by simp
    rw [Digits.scale, hzero]
    rfl
  | negSucc k => exact congrArg (Decimal.positional · (k + 1)) (Nat.mul_one digits).symm

theorem Digits.value_eq (d : Digits) : d.value = d.mantissa / 10 ^ d.scale := by
  have hpow (k : ℕ) : ((tenPow k : ℕ) : ℚ) = 10 ^ k := Nat.cast_pow 10 k
  rw [value, tenPower_eq_zpow, mantissa, scale, Nat.cast_mul, hpow, mul_div_assoc]
  congr 1
  rw [← zpow_natCast, ← zpow_natCast, ← zpow_sub₀ (by norm_num)]
  congr 1
  omega

/-- Digits that are few enough for a decimal. -/
structure Digits.Fits (d : Digits) : Prop where
  mantissa_lt : d.mantissa < Decimal.mantissaLimit
  scale_le : d.scale ≤ Decimal.maxScale

/-- The decimal that digits with a sign stand for. -/
def Digits.Fits.toDecimal {d : Digits} (h : d.Fits) (negative : Bool) : Decimal :=
  .ofParts negative d.mantissa d.scale h.mantissa_lt h.scale_le

theorem Digits.Fits.value_toDecimal {d : Digits} (h : d.Fits) (negative : Bool) :
    (h.toDecimal negative).value = if negative then -d.value else d.value := by
  rw [toDecimal, Decimal.value_ofParts, d.value_eq]

variable {x : Binary64} {negative : Bool} {m : ℕ} {e : ℤ}

/-- A double is read as its shortest digits are, with its sign. -/
theorem read_toText_eq (hkind : x.kind = .finite negative m e) :
    Decimal.read x.toText =
      (Decimal.readWhole .start false
        (Decimal.positional (shortest m e).mantissa (shortest m e).scale)).map (·.toDecimal negative) := by
  rw [toText, hkind]
  dsimp only
  rw [Decimal.read, String.toList_ofList, Digits.toChars_eq]
  exact Decimal.readChars_signed negative _ _

/-- It is read as just these digits if they fit. -/
theorem read_toText (hkind : x.kind = .finite negative m e) (h : (shortest m e).Fits) :
    Decimal.read x.toText = .ok (h.toDecimal negative) := by
  rw [read_toText_eq hkind, Decimal.readWhole_positional h.mantissa_lt h.scale_le]
  rfl

/-- Without fraction digits the mantissa is the number itself. -/
theorem Digits.scale_eq_zero {d : Digits} (h : 0 ≤ d.exponent) : d.scale = 0 := by
  rw [scale]
  omega

theorem Digits.mantissa_of_fraction {d : Digits} (h : d.exponent < 0) : d.mantissa = d.digits := by
  have hzero : d.exponent.toNat = 0 := by omega
  rw [mantissa, hzero]
  exact Nat.mul_one _

theorem Digits.value_le {d : Digits} (h : d.mantissa < Decimal.mantissaLimit) : d.value ≤ 2 ^ 96 - 1 := by
  have hmantissa : d.mantissa + 1 ≤ 2 ^ 96 := h
  have hmantissa : (d.mantissa : ℚ) + 1 ≤ 2 ^ 96 := by exact_mod_cast hmantissa
  have hle : d.value ≤ d.mantissa := by
    rw [d.value_eq]
    exact div_le_self (Nat.cast_nonneg _) (one_le_pow₀ (by norm_num))
  linarith

/-- Of seventeen digits only a whole number can be too large. -/
theorem Digits.mantissa_lt {d : Digits} (hdigits : d.digits ≤ 10 ^ 17) (h : d.value < 2 ^ 96) :
    d.mantissa < Decimal.mantissaLimit := by
  have hlimit : Decimal.mantissaLimit = 2 ^ 96 := rfl
  rcases le_or_gt 0 d.exponent with hwhole | hfraction
  · rw [d.value_eq, scale_eq_zero hwhole, pow_zero, div_one] at h
    exact_mod_cast h
  · rw [mantissa_of_fraction hfraction]
    omega

/-- The shortest digits of a double fit if they denote less than the first number that does not and
are not too far behind the point. -/
theorem fits_shortest (h : Canonical m e) (hlow : -28 ≤ (shortest m e).exponent)
    (hhigh : (shortest m e).value < 2 ^ 96) : (shortest m e).Fits := by
  have hmax : Decimal.maxScale = 28 := rfl
  exact ⟨Digits.mantissa_lt (shortest_bounds h).1 hhigh, by rw [Digits.scale]; omega⟩

end Binary64

end PriceArchive
