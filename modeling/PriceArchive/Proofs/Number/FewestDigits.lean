import PriceArchive.Proofs.Number.ShortestDigits

namespace PriceArchive

namespace Binary64

variable {m : ℕ} {e ε : ℤ} {x a b c : ℚ} {n : Neighbourhood} {d d' : Digits}

/-- The number `a` is nearer to `x` than `b` is, or as near and not below it. -/
def Nearer (x a b : ℚ) : Prop := |a - x| < |b - x| ∨ |a - x| = |b - x| ∧ b ≤ a

theorem Nearer.refl (x a : ℚ) : Nearer x a a := .inr ⟨rfl, le_rfl⟩

/-- A number below the farther one of two is farther still. -/
theorem Nearer.of_le_of_le (h : Nearer x a b) (hcb : c ≤ b) (hbx : b ≤ x) : Nearer x a c := by
  have hdist : |b - x| ≤ |c - x| := by
    rw [abs_of_nonpos (by linarith), abs_of_nonpos (by linarith)]
    linarith
  rcases h with hlt | ⟨heq, hba⟩
  · exact .inl (hlt.trans_le hdist)
  · exact (heq.trans_le hdist).lt_or_eq.imp_right fun h => ⟨h, hcb.trans hba⟩

/-- A number above the farther one is as near only if it is that one. -/
theorem Nearer.of_ge_of_ge (h : Nearer x a b) (hxb : x ≤ b) (hbc : b ≤ c) : Nearer x a c := by
  rcases hbc.eq_or_lt with rfl | hlt
  · exact h
  have hdist : |b - x| < |c - x| := by
    rw [abs_of_nonneg (by linarith), abs_of_nonneg (by linarith)]
    linarith
  have hle : |a - x| ≤ |b - x| := h.elim le_of_lt fun h => h.1.le
  exact .inl (hle.trans_lt hdist)

theorem Nearer.antisymm (hab : Nearer x a b) (hba : Nearer x b a) : a = b := by
  rcases hab with hlt | ⟨heq, hle⟩
  · rcases hba with hlt' | ⟨heq, -⟩
    · exact absurd hlt' hlt.not_gt
    · exact absurd heq hlt.ne'
  · rcases hba with hlt | ⟨-, hle'⟩
    · exact absurd heq hlt.ne'
    · exact le_antisymm hle' hle

/-- The shortest digits of a number that is not negative: they round to it, no fewer ones do, and of
as few none are nearer to it. -/
structure Digits.Shortest (x : ℚ) (d : Digits) : Prop where
  nearest_eq : nearest d.value = x
  fewest : ∀ c : Digits, nearest c.value = x → digitCount d.digits ≤ digitCount c.digits
  nearer : ∀ c : Digits, nearest c.value = x → digitCount c.digits = digitCount d.digits →
    Nearer x d.value c.value

theorem Digits.value_eq_mul (d : Digits) : d.value = d.digits * (10 : ℚ) ^ d.exponent := by
  rw [value, tenPower_eq_zpow]

theorem Digits.value_nonneg (d : Digits) : 0 ≤ d.value := by
  rw [value_eq_mul]
  positivity

/-- The digits of a number that is not zero say between which powers of ten it lies. -/
theorem Digits.value_bounds (h : 0 < d.value) :
    (10 : ℚ) ^ (digitCount d.digits + d.exponent - 1) ≤ d.value ∧
      d.value < (10 : ℚ) ^ (digitCount d.digits + d.exponent) := by
  have hunit : (0 : ℚ) < 10 ^ d.exponent := by positivity
  rw [value_eq_mul] at h ⊢
  have hdigits : 0 < d.digits := by exact_mod_cast pos_of_mul_pos_left h hunit.le
  obtain ⟨hlow, hhigh⟩ := digitCount_zpow_bounds hdigits
  rw [add_sub_right_comm, zpow_add₀ (by norm_num), zpow_add₀ (by norm_num)]
  constructor
  · gcongr
  · gcongr
    linarith

/-- As many digits that denote one number are the same. -/
theorem Digits.eq_of_value_eq (h : 0 < d.value) (hvalue : d.value = d'.value)
    (hcount : digitCount d.digits = digitCount d'.digits) : d = d' := by
  have hbounds := d.value_bounds h
  have hbounds' := d'.value_bounds (hvalue ▸ h)
  rw [← hvalue, ← hcount] at hbounds'
  have hbelow := (zpow_lt_zpow_iff_right₀ (by norm_num)).mp (hbounds.1.trans_lt hbounds'.2)
  have habove := (zpow_lt_zpow_iff_right₀ (by norm_num)).mp (hbounds'.1.trans_lt hbounds.2)
  have hexponent : d.exponent = d'.exponent := by omega
  obtain ⟨digits, exponent⟩ := d
  obtain ⟨digits', exponent'⟩ := d'
  obtain rfl : exponent = exponent' := hexponent
  have hunit : (0 : ℚ) < tenPower exponent := by
    rw [tenPower_eq_zpow]
    positivity
  have hdigits : digits = digits' := by exact_mod_cast mul_right_cancel₀ hunit.ne' hvalue
  rw [hdigits]

namespace Digits.Shortest

theorem digitCount_eq (h : d.Shortest x) (h' : d'.Shortest x) :
    digitCount d.digits = digitCount d'.digits :=
  le_antisymm (h.fewest d' h'.nearest_eq) (h'.fewest d h.nearest_eq)

theorem value_eq (h : d.Shortest x) (h' : d'.Shortest x) : d.value = d'.value :=
  (h.nearer d' h'.nearest_eq (h'.digitCount_eq h)).antisymm
    (h'.nearer d h.nearest_eq (h.digitCount_eq h'))

/-- No two digits are the shortest ones of a number that is not zero. -/
theorem unique (hx : 0 < x) (h : d.Shortest x) (h' : d'.Shortest x) : d = d' := by
  refine eq_of_value_eq ?_ (h.value_eq h') (h.digitCount_eq h')
  refine lt_of_le_of_ne d.value_nonneg fun hzero => ?_
  have hnearest := h.nearest_eq
  rw [← hzero, nearest_zero] at hnearest
  exact hx.ne hnearest

end Digits.Shortest

/-- The candidate that is taken is the nearer one of those that will do. -/
theorem nearer_of_choose {lower upper : Digits} (hlower : lower.value ≤ x) (hupper : x ≤ upper.value)
    (h : choose x n lower upper = some d) :
    (n.contains lower.value = true → Nearer x d.value lower.value) ∧
      (n.contains upper.value = true → Nearer x d.value upper.value) := by
  have hbelow : |lower.value - x| = x - lower.value := by
    rw [abs_sub_comm]
    exact abs_of_nonneg (by linarith)
  have habove : |upper.value - x| = upper.value - x := abs_of_nonneg (by linarith)
  unfold choose at h
  split at h
  · split at h
    · rename_i hlt
      cases h
      exact ⟨fun _ => .refl .., fun _ => .inl (by rw [hbelow, habove]; exact hlt)⟩
    · rename_i hle
      cases h
      refine ⟨fun _ => ?_, fun _ => .refl ..⟩
      rw [Nearer, hbelow, habove]
      exact (not_lt.mp hle).lt_or_eq.imp_right fun heq => ⟨heq, hlower.trans hupper⟩
  · rename_i hnot
    cases h
    exact ⟨fun _ => .refl .., fun hcontains => by simp [hnot] at hcontains⟩
  · rename_i hnot _
    cases h
    exact ⟨fun hcontains => by simp [hnot] at hcontains, fun _ => .refl ..⟩
  · cases h

/-- No number of its grid that reads back is nearer than what the search finds there. -/
theorem nearer_of_onGrid (hx : 0 ≤ x) (hself : n.contains x = true) (h : onGrid x n ε = some d) {k : ℕ}
    (hk : n.contains (k * (10 : ℚ) ^ ε) = true) : Nearer x d.value (k * (10 : ℚ) ^ ε) := by
  obtain ⟨hlow, hhigh⟩ := steps_bounds hx ε
  have hnearer := nearer_of_choose (by rwa [Digits.value_eq_mul])
    (by rw [Digits.value_eq_mul]; exact hhigh.le) h
  rw [Digits.value_eq_mul, Digits.value_eq_mul ⟨_ + 1, _⟩] at hnearer
  rcases Nat.lt_or_ge (steps x ε) k with hlt | hge
  · have hle : ((steps x ε + 1 : ℕ) : ℚ) * 10 ^ ε ≤ k * 10 ^ ε := by
      gcongr
      exact hlt
    exact (hnearer.2 (n.contains_of_between hself hk hhigh.le hle)).of_ge_of_ge hhigh.le hle
  · have hle : (k : ℚ) * 10 ^ ε ≤ steps x ε * 10 ^ ε := by gcongr
    exact (hnearer.1 (n.contains_of_between hk hself hle hlow)).of_le_of_le hle hlow

theorem digitCount_pos (number : ℕ) : 0 < digitCount number := by
  rw [digitCount]
  split <;> omega

/-- So many digits hold every number below a power of ten. -/
theorem digitCount_le {k number : ℕ} (hk : 0 < k) (h : number < 10 ^ k) : digitCount number ≤ k := by
  rcases Nat.eq_zero_or_pos number with rfl | hpos
  · rw [digitCount, if_pos (by norm_num)]
    exact hk
  · have hlow := (digitCount_bounds hpos).1
    have := (Nat.pow_lt_pow_iff_right (by norm_num)).mp (hlow.trans_lt h)
    omega

/-- A power of ten has one digit more than the numbers below it, which is dropped. -/
theorem Digits.dropZero_lt {k : ℕ} (hk : 0 < k) (h : d.digits ≤ 10 ^ k) :
    d.dropZero.digits < 10 ^ k := by
  rcases h.lt_or_eq with hlt | heq
  · exact d.dropZero_bounds.1.trans_lt hlt
  · obtain ⟨j, rfl⟩ : ∃ j, k = j + 1 := ⟨k - 1, by omega⟩
    have hpos : 0 < 10 ^ j := by positivity
    rw [pow_succ] at heq ⊢
    rw [dropZero, if_pos (by simp [heq])]
    dsimp only
    omega

/-- The search ends with the number it finds on its last grid. -/
theorem onGrid_candidate (h : Canonical m e) :
    onGrid (m * (2 : ℚ) ^ e) (neighbourhood m e) (candidate m e).exponent = some (candidate m e) ∧
      (candidate m e).exponent < pointPosition (m * (2 : ℚ) ^ e) := by
  obtain ⟨k, hk⟩ := exists_contains_seventeen h
  obtain ⟨first, hfirst, -, hgrid⟩ := onGrid_search (by positivity) (contains_self m e)
    (by norm_num : 1 ≤ 17) (by norm_num : 17 < 1 + 17) hk
  have hexponent := (found_of_onGrid hgrid).2
  change (candidate m e).exponent = _ at hexponent
  rw [hexponent]
  exact ⟨hgrid, by omega⟩

/-- There are no more shortest digits than places from the first digit of the double to the last grid of
the search. -/
theorem digitCount_shortest_le (h : Canonical m e) :
    digitCount (shortest m e).digits + (candidate m e).exponent ≤
      pointPosition (m * (2 : ℚ) ^ e) := by
  have hlt := h.position_bounds.2
  have hlow := (steps_bounds h.size_pos.le (candidate m e).exponent).1
  obtain ⟨hgrid, hposition⟩ := onGrid_candidate h
  have hdigits := (found_of_onGrid hgrid).1.digits_le
  obtain ⟨count, hcount⟩ : ∃ count : ℕ,
      pointPosition (m * (2 : ℚ) ^ e) = count + (candidate m e).exponent :=
    ⟨(pointPosition (m * (2 : ℚ) ^ e) - (candidate m e).exponent).toNat, by omega⟩
  rw [hcount, zpow_add₀ (by norm_num), zpow_natCast] at hlt
  have hsteps : steps (m * (2 : ℚ) ^ e) (candidate m e).exponent < 10 ^ count := by
    exact_mod_cast lt_of_mul_lt_mul_right (hlow.trans_lt hlt) (by positivity)
  have hle := digitCount_le (by omega) (Digits.dropZero_lt (d := candidate m e) (by omega)
    (hdigits.trans hsteps))
  rw [shortest_eq h]
  omega

/-- If a number that reads back begins at another place than the double, one digit is enough. -/
theorem exponent_candidate_of_beyond (h : Canonical m e)
    (ha : (neighbourhood m e).contains a = true)
    (hbeyond : a < (10 : ℚ) ^ (pointPosition (m * (2 : ℚ) ^ e) - 1) ∨
      (10 : ℚ) ^ pointPosition (m * (2 : ℚ) ^ e) ≤ a) :
    pointPosition (m * (2 : ℚ) ^ e) - 1 ≤ (candidate m e).exponent := by
  have hbounds := h.position_bounds
  rcases hbeyond with hbelow | habove
  · refine le_exponent_candidate h (k := 1) ?_ (by omega)
    rw [Nat.cast_one, one_mul]
    exact Neighbourhood.contains_of_between ha (contains_self m e) hbelow.le hbounds.1
  · refine le_exponent_candidate h (k := 10) ?_ (by omega)
    have hten : ((10 : ℕ) : ℚ) * 10 ^ (pointPosition (m * (2 : ℚ) ^ e) - 1) =
        10 ^ pointPosition (m * (2 : ℚ) ^ e) := by
      rw [zpow_sub_one₀ (by norm_num), Nat.cast_ofNat]
      ring
    rw [hten]
    exact Neighbourhood.contains_of_between (contains_self m e) ha hbounds.2.le habove

namespace Canonical

variable (h : Canonical m e)

include h

/-- Digits round to a double exactly when they denote a number of its neighbourhood. -/
theorem contains_value_iff :
    (neighbourhood m e).contains d.value = true ↔ nearest d.value = m * (2 : ℚ) ^ e := by
  rcases d.value_nonneg.eq_or_lt with hzero | hpos
  · rw [← hzero, nearest_zero]
    exact iff_of_false (fun hcontains => lt_irrefl _ (pos_of_contains h.pos hcontains))
      h.size_pos.ne
  · exact (nearest_eq_iff_contains h hpos).symm

/-- No fewer digits than the shortest ones read back. -/
theorem digitCount_shortest_le_of_contains (hd : (neighbourhood m e).contains d.value = true) :
    digitCount (shortest m e).digits ≤ digitCount d.digits := by
  have hbounds := d.value_bounds (pos_of_contains h.pos hd)
  have hcount := digitCount_shortest_le h
  have hplace := (onGrid_candidate h).2
  have hpos := digitCount_pos d.digits
  by_contra hfewer
  -- A grid coarser than the last one of the search has no number that reads back and begins where the
  -- double does, and on the other grids fewer digits begin at a lower place.
  have hbeyond : d.value < (10 : ℚ) ^ (pointPosition (m * (2 : ℚ) ^ e) - 1) ∨
      (10 : ℚ) ^ pointPosition (m * (2 : ℚ) ^ e) ≤ d.value := by
    rcases le_or_gt d.exponent (candidate m e).exponent with hfine | hcoarse
    · left
      exact hbounds.2.trans_le (zpow_le_zpow_right₀ (by norm_num) (by omega))
    · right
      have hvalue := d.value_eq_mul ▸ hd
      have hlarge : pointPosition (m * (2 : ℚ) ^ e) ≤ d.exponent := by
        by_contra hsmall
        have := le_exponent_candidate h hvalue (by omega)
        omega
      exact (zpow_le_zpow_right₀ (by norm_num) (by omega)).trans hbounds.1
  have := exponent_candidate_of_beyond h hd hbeyond
  omega

/-- Of as few digits as the shortest ones none are nearer. -/
theorem nearer_shortest (hd : (neighbourhood m e).contains d.value = true)
    (hcount : digitCount d.digits = digitCount (shortest m e).digits) :
    Nearer (m * (2 : ℚ) ^ e) (shortest m e).value d.value := by
  have hbounds := h.position_bounds
  have hplace := digitCount_shortest_le h
  obtain ⟨hgrid, hlast⟩ := onGrid_candidate h
  have hnearer {k : ℕ} := nearer_of_onGrid (by positivity) (contains_self m e) hgrid (k := k)
  rw [shortest_eq h, Digits.dropZero_value]
  rcases le_or_gt (candidate m e).exponent d.exponent with hcoarse | hfine
  · obtain ⟨number, hnumber⟩ := exists_eq_mul_of_le hcoarse d.digits
    rw [d.value_eq_mul, hnumber] at hd ⊢
    exact hnearer hd
  · -- On a finer grid so few digits end below the power of ten with which the double begins.
    have hbelow : d.value < (10 : ℚ) ^ (pointPosition (m * (2 : ℚ) ^ e) - 1) :=
      (d.value_bounds (pos_of_contains h.pos hd)).2.trans_le
        (zpow_le_zpow_right₀ (by norm_num) (by omega))
    have hpower := Neighbourhood.contains_of_between hd (contains_self m e) hbelow.le hbounds.1
    obtain ⟨number, hnumber⟩ := exists_eq_mul_of_le (Int.le_sub_one_of_lt hlast) 1
    rw [Nat.cast_one, one_mul] at hnumber
    rw [hnumber] at hpower hbelow hbounds
    exact (hnearer hpower).of_le_of_le hbelow.le hbounds.1

/-- The digits that the search finds are the shortest ones of their double. -/
theorem shortest : (shortest m e).Shortest (m * (2 : ℚ) ^ e) where
  nearest_eq := h.contains_value_iff.mp (contains_shortest h)
  fewest _ hc := h.digitCount_shortest_le_of_contains (h.contains_value_iff.mpr hc)
  nearer _ hc hcount := h.nearer_shortest (h.contains_value_iff.mpr hc) hcount

end Canonical

/-- The shortest digits of zero. -/
theorem shortest_zero (e : ℤ) : (shortest 0 e).Shortest 0 := by
  have hzero : shortest 0 e = ⟨0, 0⟩ := if_pos rfl
  have hvalue : (shortest 0 e).value = 0 := hzero ▸ zero_mul _
  have hcount : digitCount (shortest 0 e).digits = 1 := by rw [hzero, digitCount, if_pos (by decide)]
  refine ⟨by rw [hvalue, nearest_zero], fun c _ => hcount ▸ digitCount_pos c.digits, fun c _ _ => ?_⟩
  rw [hvalue, Nearer, sub_self, abs_zero, sub_zero]
  exact (abs_nonneg c.value).eq_or_lt.symm.imp_right fun hzero =>
    ⟨hzero, (abs_eq_zero.mp hzero.symm).le⟩

end Binary64

end PriceArchive
