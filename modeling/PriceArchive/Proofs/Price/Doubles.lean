import PriceArchive.Proofs.Decimal.Overlong
import PriceArchive.Proofs.Number.FewestDigits
import PriceArchive.Proofs.Price.ReadBack

namespace PriceArchive

namespace Binary64

variable {x : Binary64} {negative : Bool} {m : ℕ} {e : ℤ} {d : Digits} {number : ℚ}

/-- A finite double is zero or has the significand and the exponent of a positive one. -/
theorem canonical_of_kind (h : x.kind = .finite negative m e) : m = 0 ∨ Canonical m e := by
  have hfraction : x.fractionField < fractionLimit := Nat.mod_lt _ (by decide)
  rw [fractionLimit_eq] at hfraction
  unfold kind at h
  split at h
  · split at h <;> cases h
  · split at h
    · cases h
      rcases Nat.eq_zero_or_pos x.fractionField with hzero | hpos
      · exact .inl hzero
      · exact .inr ⟨hpos, by omega, le_rfl, .inr rfl⟩
    · cases h
      have hlimit := fractionLimit_eq
      exact .inr ⟨by omega, by omega, by omega, .inl (by omega)⟩

theorem exists_kind (h : x.IsFinite) : ∃ negative m e, x.kind = .finite negative m e := by
  unfold kind
  rw [if_neg h]
  split <;> exact ⟨_, _, _, rfl⟩

theorem not_isFinite_iff :
    ¬ x.IsFinite ↔ x.kind = .notANumber ∨ ∃ negative, x.kind = .infinite negative := by
  constructor
  · intro h
    unfold kind
    rw [if_pos (not_not.mp h)]
    split
    · exact .inr ⟨_, rfl⟩
    · exact .inl rfl
  · intro h hfinite
    obtain ⟨negative, m, e, hkind⟩ := exists_kind hfinite
    rw [hkind] at h
    rcases h with hnumber | ⟨_, hinfinite⟩
    · cases hnumber
    · cases hinfinite

theorem shortest_of_kind (h : x.kind = .finite negative m e) :
    (shortest m e).Shortest (m * (2 : ℚ) ^ e) ∧ (shortest m e).digits ≤ 10 ^ 17 := by
  rcases canonical_of_kind h with rfl | hcanonical
  · rw [Nat.cast_zero, zero_mul]
    exact ⟨shortest_zero e, Nat.zero_le _⟩
  · exact ⟨hcanonical.shortest, (shortest_bounds hcanonical).1⟩

/-- A number with the sign of a double. -/
def withSign (negative : Bool) (y : ℚ) : ℚ := if negative then -y else y

theorem abs_withSign (negative : Bool) {y : ℚ} (hy : 0 ≤ y) : |withSign negative y| = y := by
  cases negative with
  | false => exact abs_of_nonneg hy
  | true => exact (abs_neg y).trans (abs_of_nonneg hy)

/-- Numbers with one sign lie apart as without it. -/
theorem abs_withSign_sub (negative : Bool) (y z : ℚ) :
    |withSign negative y - withSign negative z| = |y - z| := by
  cases negative with
  | false => rfl
  | true =>
    change |-y - -z| = |y - z|
    rw [neg_sub_neg, abs_sub_comm]

/-- The sign of a zero makes no difference. -/
theorem withSign_of_lt_zero (negative : Bool) {y z : ℚ} (hy : 0 ≤ y) (hz : y = 0 → z = 0) :
    (if withSign negative y < 0 then -z else z) = withSign negative z := by
  cases negative with
  | false => exact if_neg (not_lt.mpr hy)
  | true =>
    rcases hy.eq_or_lt with hzero | hpos
    · rw [hz hzero.symm, neg_zero, ite_self]
      exact neg_zero.symm
    · exact if_pos (neg_lt_zero.mpr hpos)

/-- The digits are the shortest ones of a finite double, and the number is the one that they denote with
its sign. -/
def HasShortest (x : Binary64) (d : Digits) (number : ℚ) : Prop :=
  ∃ v, x.value? = some v ∧ d.Shortest |v| ∧ number = if v < 0 then -d.value else d.value

theorem value?_of_kind (h : x.kind = .finite negative m e) :
    x.value? = some (withSign negative (m * (2 : ℚ) ^ e)) := by
  rw [value?, h]
  dsimp only
  rw [twoPower_eq_zpow]
  rfl

theorem Digits.Shortest.value_eq_zero (h : d.Shortest 0) : d.value = 0 :=
  (h.value_eq (shortest_zero 0)).trans (zero_mul _)

/-- A finite double has shortest digits. -/
theorem hasShortest_of_kind (h : x.kind = .finite negative m e) :
    x.HasShortest (shortest m e) (withSign negative (shortest m e).value) := by
  have hshortest := (shortest_of_kind h).1
  refine ⟨_, value?_of_kind h, ?_, (withSign_of_lt_zero negative (by positivity) fun hzero => ?_).symm⟩
  · rwa [abs_withSign negative (by positivity)]
  · exact (hzero ▸ hshortest).value_eq_zero

theorem HasShortest.isFinite (h : x.HasShortest d number) : x.IsFinite := by
  obtain ⟨v, hv, -⟩ := h
  unfold value? at hv
  split at hv
  · rename_i hkind
    exact isFinite_of_kind hkind
  · cases hv

/-- It has no other ones that denote another number or go less far behind the point. -/
theorem HasShortest.eq_of_kind (h : x.HasShortest d number) (hkind : x.kind = .finite negative m e) :
    number = withSign negative (shortest m e).value ∧ (shortest m e).scale ≤ d.scale := by
  obtain ⟨v, hv, hd, rfl⟩ := h
  obtain rfl : withSign negative (m * (2 : ℚ) ^ e) = v :=
    Option.some.inj ((value?_of_kind hkind).symm.trans hv)
  rw [abs_withSign negative (by positivity)] at hd
  have hshortest := (shortest_of_kind hkind).1
  rw [← hd.value_eq hshortest]
  constructor
  · exact withSign_of_lt_zero negative (by positivity) fun hzero => (hzero ▸ hd).value_eq_zero
  · rcases canonical_of_kind hkind with rfl | hcanonical
    · exact Nat.zero_le _
    · rw [hd.unique hcanonical.size_pos hshortest]

end Binary64

open Binary64

namespace Price

variable {x : Binary64} {negative : Bool} {m : ℕ} {e : ℤ} {d : Digits} {number : ℚ}

/-- A finite double is read as its digits are, with its sign. -/
theorem ofStored_eq (hkind : x.kind = .finite negative m e) :
    ofStored x =
      match Decimal.readWhole .start false
          (Decimal.positional (shortest m e).mantissa (shortest m e).scale) with
      | .ok p => .ok (p.toDecimal negative)
      | .error reason => .error (.unreadable x reason) := by
  rw [ofStored, if_pos (isFinite_of_kind hkind), read_toText_eq hkind]
  generalize Decimal.readWhole .start false _ = read
  cases read <;> rfl

/-- A number that goes past 96 bits is refused. -/
theorem ofStored_of_too_large (hkind : x.kind = .finite negative m e)
    (h : 2 ^ 96 - 1 < (shortest m e).value) : ofStored x = .error (.unreadable x .tooManyDigits) := by
  have hdigits := (shortest_of_kind hkind).2
  have hlarge : Decimal.mantissaLimit ≤ (shortest m e).mantissa := by
    by_contra hsmall
    exact absurd (Digits.value_le (not_le.mp hsmall)) (not_le.mpr h)
  have hwhole : 0 ≤ (shortest m e).exponent := by
    by_contra hfraction
    rw [Digits.mantissa_of_fraction (not_le.mp hfraction)] at hlarge
    exact absurd (hlarge.trans hdigits) (by decide)
  rw [ofStored_eq hkind, Digits.scale_eq_zero hwhole, Decimal.readWhole_of_limit_le hlarge]

/-- A quotient that is rounded to a whole number of the last place is off by at most half of one. -/
theorem abs_roundHalfUp_div_sub_le (n : ℕ) {scale places : ℕ} (h : places ≤ scale) :
    |(roundHalfUp n (tenPow (scale - places)) : ℚ) / 10 ^ places - n / 10 ^ scale| ≤
      1 / 2 * (1 / 10 ^ places) := by
  have hten : (0 : ℚ) < 10 ^ places := by positivity
  have hpow : (10 : ℚ) ^ scale = 10 ^ (scale - places) * 10 ^ places := by
    rw [← pow_add, Nat.sub_add_cancel h]
  rw [roundHalfUp_eq_wholeUp n (tenPow_pos _), cast_tenPow, hpow, ← div_div, ← sub_div, abs_div,
    abs_of_pos hten, div_eq_mul_one_div]
  gcongr
  exact abs_wholeUp_sub_le (by positivity)

/-- A number that goes past 28 places is rounded there. -/
theorem ofStored_of_too_small (hkind : x.kind = .finite negative m e)
    (h : Decimal.maxScale < (shortest m e).scale) :
    ∃ p, ofStored x = .ok p ∧
      |p.value - withSign negative (shortest m e).value| ≤ 1 / 2 * (1 / 10 ^ 28) := by
  have hdigits := (shortest_of_kind hkind).2
  have hfraction : (shortest m e).exponent < 0 := by
    by_contra hwhole
    rw [Digits.scale_eq_zero (not_lt.mp hwhole)] at h
    exact absurd h (by decide)
  rw [← Digits.mantissa_of_fraction hfraction] at hdigits
  have hfits : (shortest m e).mantissa / tenPow ((shortest m e).scale - Decimal.maxScale) + 1 <
      Decimal.mantissaLimit := by
    have hlimit : Decimal.mantissaLimit = 79228162514264337593543950336 := rfl
    have hle := Nat.div_le_self (shortest m e).mantissa
      (tenPow ((shortest m e).scale - Decimal.maxScale))
    omega
  obtain ⟨p, hp, hscale, hread⟩ := Decimal.readWhole_overlong h hfits
  refine ⟨p.toDecimal negative, by rw [ofStored_eq hkind, hread], ?_⟩
  have hvalue : (p.toDecimal negative).value = withSign negative ((p.mantissa : ℚ) / 10 ^ p.scale) :=
    Decimal.value_ofParts negative p.mantissa_lt p.scale_le
  rw [hvalue, abs_withSign_sub, Digits.value_eq, hp, hscale]
  exact abs_roundHalfUp_div_sub_le _ h.le

/-- Any other number is read as it is, or rounded at the last place of a decimal. -/
theorem ofStored_of_le (hkind : x.kind = .finite negative m e)
    (h : (shortest m e).value ≤ 2 ^ 96 - 1) :
    ∃ p, ofStored x = .ok p ∧
      |p.value - withSign negative (shortest m e).value| ≤ 1 / 2 * (1 / 10 ^ 28) ∧
      ((shortest m e).scale ≤ 28 → p.value = withSign negative (shortest m e).value) := by
  rcases le_or_gt (shortest m e).scale Decimal.maxScale with hscale | hscale
  · have hfits : (shortest m e).Fits :=
      ⟨Digits.mantissa_lt (shortest_of_kind hkind).2 (h.trans_lt (by norm_num)), hscale⟩
    have hvalue := hfits.value_toDecimal negative
    refine ⟨_, ofStored_of_kind hkind hfits, ?_, fun _ => hvalue⟩
    change |_ - (if negative then -_ else _)| ≤ _
    rw [hvalue, sub_self, abs_zero]
    positivity
  · obtain ⟨p, hread, hnear⟩ := ofStored_of_too_small hkind hscale
    exact ⟨p, hread, hnear, fun hle => absurd hle (not_le.mpr hscale)⟩

/-- A double is no price exactly if it is infinite or not a number, or if the number that its shortest
digits denote passes the largest mantissa. A finite double has such digits. Whichever they are, the price
is off from their number by at most half of the last place that a decimal can have, and is just that number
if they end at this place or before it. -/
theorem ofStored_reads_shortest (x : Binary64) :
    ((∃ reason, ofStored x = .error reason) ↔
        x.kind = .notANumber ∨ (∃ negative, x.kind = .infinite negative) ∨
          ∃ d number, x.HasShortest d number ∧ 2 ^ 96 - 1 < |number|) ∧
      (x.IsFinite → ∃ d number, x.HasShortest d number) ∧
      ∀ d number, x.HasShortest d number → |number| ≤ 2 ^ 96 - 1 →
        ∃ p, ofStored x = .ok p ∧ |p.value - number| ≤ 1 / 2 * (1 / 10 ^ 28) ∧
          (d.scale ≤ 28 → p.value = number) := by
  by_cases hfinite : x.IsFinite
  · obtain ⟨negative, m, e, hkind⟩ := exists_kind hfinite
    have hshortest := hasShortest_of_kind hkind
    have habs := abs_withSign negative (shortest m e).value_nonneg
    refine ⟨⟨?_, ?_⟩, fun _ => ⟨_, _, hshortest⟩, ?_⟩
    · rintro ⟨reason, hreason⟩
      refine .inr (.inr ⟨_, _, hshortest, ?_⟩)
      by_contra hle
      rw [habs] at hle
      obtain ⟨p, hp, -⟩ := ofStored_of_le hkind (not_lt.mp hle)
      rw [hp] at hreason
      cases hreason
    · rw [← or_assoc, ← not_isFinite_iff]
      rintro (hnot | ⟨d, number, hd, hlarge⟩)
      · exact absurd hfinite hnot
      · rw [(hd.eq_of_kind hkind).1, habs] at hlarge
        exact ⟨_, ofStored_of_too_large hkind hlarge⟩
    · intro d number hd hle
      obtain ⟨rfl, hscale⟩ := hd.eq_of_kind hkind
      rw [habs] at hle
      obtain ⟨p, hp, hnear, hexact⟩ := ofStored_of_le hkind hle
      exact ⟨p, hp, hnear, fun h => hexact (hscale.trans h)⟩
  · refine ⟨iff_of_true ⟨_, if_neg hfinite⟩ ?_, fun h => absurd h hfinite,
      fun d number hd => absurd hd.isFinite hfinite⟩
    rw [← or_assoc, ← not_isFinite_iff]
    exact .inl hfinite

/-- Two to the 96th is the first double that is refused, the one before it is read just as its digits say,
and the smallest positive double is read as zero. -/
theorem ofStored_reads_shortest_extremes :
    HasShortest ⟨0x45F0000000000000⟩ ⟨7922816251426434, 13⟩ 79228162514264340000000000000 ∧
      (∃ reason, ofStored ⟨0x45F0000000000000⟩ = .error reason) ∧
      HasShortest ⟨0x45EFFFFFFFFFFFFF⟩ ⟨7922816251426433, 13⟩ 79228162514264330000000000000 ∧
      (∃ p, ofStored ⟨0x45EFFFFFFFFFFFFF⟩ = .ok p ∧ p.value = 79228162514264330000000000000) ∧
      HasShortest ⟨1⟩ ⟨5, -324⟩ (5 * tenPower (-324)) ∧
      ∃ p, ofStored ⟨1⟩ = .ok p ∧ |p.value - 5 * tenPower (-324)| ≤ 1 / 2 * (1 / 10 ^ 28) := by
  have hshortest {x : Binary64} {m : ℕ} {e : ℤ} {d : Digits} {number : ℚ}
      (hkind : x.kind = .finite false m e) (hd : shortest m e = d) (hnumber : d.value = number) :
      x.HasShortest d number := by
    subst hd hnumber
    exact hasShortest_of_kind hkind
  have hlarge : HasShortest ⟨0x45F0000000000000⟩ ⟨7922816251426434, 13⟩
      79228162514264340000000000000 :=
    hshortest (m := 2 ^ 52) (e := 44) (by decide +kernel) (by decide +kernel) (by decide +kernel)
  have hbelow : HasShortest ⟨0x45EFFFFFFFFFFFFF⟩ ⟨7922816251426433, 13⟩
      79228162514264330000000000000 :=
    hshortest (m := 2 ^ 53 - 1) (e := 43) (by decide +kernel) (by decide +kernel) (by decide +kernel)
  have hsmallest : HasShortest ⟨1⟩ ⟨5, -324⟩ (5 * tenPower (-324)) :=
    hshortest (m := 1) (e := -1074) (by decide +kernel) (by decide +kernel) rfl
  obtain ⟨pbelow, hpbelow, -, hexact⟩ := (ofStored_reads_shortest _).2.2 _ _ hbelow (by decide +kernel)
  obtain ⟨psmallest, hpsmallest, hnear, -⟩ :=
    (ofStored_reads_shortest _).2.2 _ _ hsmallest (by decide +kernel)
  exact ⟨hlarge, (ofStored_reads_shortest _).1.mpr (.inr (.inr ⟨_, _, hlarge, by decide +kernel⟩)), hbelow,
    ⟨pbelow, hpbelow, hexact (by decide)⟩, hsmallest, psmallest, hpsmallest, hnear⟩

end Price

end PriceArchive
