import PriceArchive.Proofs.Number.Neighbourhood

namespace PriceArchive

theorem tenPower_eq_zpow (e : Int) : tenPower e = (10 : ℚ) ^ e := by
  cases e with
  | ofNat k =>
    rw [tenPower, Int.ofNat_eq_natCast, zpow_natCast]
    exact Nat.cast_pow 10 k
  | negSucc k =>
    have hpow : ((tenPow (k + 1) : Nat) : ℚ) = 10 ^ (k + 1) := Nat.cast_pow 10 (k + 1)
    rw [tenPower, zpow_negSucc, Rat.mkRat_eq_div, hpow, Int.cast_one, one_div]

/-- The number of digits says between which powers of ten a number lies. -/
theorem digitCount_bounds {n : ℕ} (hn : 0 < n) :
    10 ^ (digitCount n - 1) ≤ n ∧ n < 10 ^ digitCount n ∧ 0 < digitCount n := by
  induction n using digitCount.induct with
  | case1 n hsmall =>
    rw [digitCount, if_pos hsmall]
    omega
  | case2 n hlarge ih =>
    obtain ⟨hlow, hhigh, hpos⟩ := ih (by omega)
    rw [digitCount, if_neg hlarge, Nat.add_sub_cancel]
    obtain ⟨k, hk⟩ : ∃ k, digitCount (n / 10) = k + 1 := ⟨_, (Nat.succ_pred hpos.ne').symm⟩
    rw [hk] at hlow hhigh ⊢
    rw [Nat.add_sub_cancel] at hlow
    rw [pow_succ] at hhigh ⊢
    rw [pow_succ]
    omega

theorem digitCount_zpow_bounds {n : ℕ} (hn : 0 < n) :
    (10 : ℚ) ^ ((digitCount n : ℤ) - 1) ≤ n ∧ (n : ℚ) + 1 ≤ (10 : ℚ) ^ (digitCount n : ℤ) := by
  obtain ⟨hlow, hhigh, hpos⟩ := digitCount_bounds hn
  have hpred : (digitCount n : ℤ) - 1 = ((digitCount n - 1 : ℕ) : ℤ) := by omega
  rw [hpred, zpow_natCast, zpow_natCast]
  exact ⟨by exact_mod_cast hlow, by exact_mod_cast hhigh⟩

/-- The whole part of a quotient. -/
theorem cast_div_bounds (a : ℕ) {b : ℕ} (hb : 0 < b) :
    ((a / b : ℕ) : ℚ) ≤ a / b ∧ (a : ℚ) / b < (a / b : ℕ) + 1 := by
  have hpos : (0 : ℚ) < b := by exact_mod_cast hb
  refine ⟨Nat.cast_div_le, ?_⟩
  rw [div_lt_iff₀ hpos]
  exact_mod_cast Nat.lt_mul_of_div_lt (Nat.lt_succ_self _) hb

namespace Binary64

variable {m : ℕ} {e ε : ℤ} {x y : ℚ}

theorem whole_bounds (hx : 0 ≤ x) :
    ((x.num.toNat / x.den : ℕ) : ℚ) ≤ x ∧ x < (x.num.toNat / x.den : ℕ) + 1 := by
  have h := cast_div_bounds x.num.toNat x.den_pos
  rwa [div_eq_of_nonneg hx] at h

/-- The position of the point says between which powers of ten a number lies. -/
theorem pointPosition_bounds (hx : 0 < x) :
    (10 : ℚ) ^ (pointPosition x - 1) ≤ x ∧ x < (10 : ℚ) ^ pointPosition x := by
  rw [pointPosition]
  split
  · rename_i hone
    have hwhole := whole_bounds hx.le
    have hpos : 0 < x.num.toNat / x.den := by
      have : (0 : ℚ) < (x.num.toNat / x.den : ℕ) := by linarith
      exact_mod_cast this
    have hdigits := digitCount_zpow_bounds hpos
    exact ⟨by linarith, by linarith⟩
  · rename_i hone
    -- Below one the digits are counted in the whole part of the reciprocal.
    have hnum : 0 < x.num.toNat := by
      have := Rat.num_pos.mpr hx
      omega
    have hinv : (x.den : ℚ) / x.num.toNat = x⁻¹ := by
      rw [← inv_div, div_eq_of_nonneg hx.le]
    have hwhole := cast_div_bounds x.den hnum
    rw [hinv] at hwhole
    have hone : 1 < x⁻¹ := (one_lt_inv₀ hx).mpr (not_le.mp hone)
    have hpos : 0 < x.den / x.num.toNat := by
      have : (0 : ℚ) < (x.den / x.num.toNat : ℕ) := by linarith
      exact_mod_cast this
    have hdigits := digitCount_zpow_bounds hpos
    generalize (digitCount (x.den / x.num.toNat) : ℤ) = zeros at hdigits ⊢
    have hlow : (10 : ℚ) ^ (-zeros) < x := by
      rw [zpow_neg, inv_lt_comm₀ (by positivity) hx]
      linarith
    have hhigh : x ≤ (10 : ℚ) ^ (-zeros + 1) := by
      rw [neg_add_eq_sub, ← neg_sub, zpow_neg, le_inv_comm₀ hx (by positivity)]
      linarith
    dsimp only
    rw [tenPower_eq_zpow]
    split
    · rename_i hle
      have hsplit : -zeros + 2 - 1 = -zeros + 1 := by ring
      rw [hsplit]
      exact ⟨hle, hhigh.trans_lt (zpow_lt_zpow_right₀ (by norm_num) (by omega))⟩
    · rename_i hlt
      rw [add_sub_cancel_right]
      exact ⟨hlow.le, not_le.mp hlt⟩

/-- A number of a decimal grid stands on every finer one. -/
theorem exists_eq_mul_of_le {q : ℤ} (h : ε ≤ q) (k : ℕ) :
    ∃ number : ℕ, (k : ℚ) * 10 ^ q = number * (10 : ℚ) ^ ε := by
  refine ⟨k * 10 ^ (q - ε).toNat, ?_⟩
  push_cast
  rw [mul_assoc, ← zpow_natCast, ← zpow_add₀ (by norm_num)]
  congr 2
  omega

variable {n : Neighbourhood} {lower upper d : Digits}

/-- One of two candidates is taken if one of them will do. -/
theorem choose_isSome (h : n.contains lower.value = true ∨ n.contains upper.value = true) :
    (choose x n lower upper).isSome = true := by
  unfold choose
  cases hlower : n.contains lower.value <;> cases hupper : n.contains upper.value
  · simp [hlower, hupper] at h
  · rfl
  · rfl
  · simp only
    split <;> rfl

theorem choose_eq_some (h : choose x n lower upper = some d) : n.contains d.value = true := by
  unfold choose at h
  split at h
  · rename_i hlower hupper
    split at h <;> cases h <;> assumption
  · cases h
    assumption
  · cases h
    assumption
  · cases h

theorem eq_or_eq_of_choose (h : choose x n lower upper = some d) : d = lower ∨ d = upper := by
  unfold choose at h
  split at h
  · split at h <;> simp_all
  · simp_all
  · simp_all
  · cases h

/-- How many whole steps of a decimal grid fit into a number. -/
def steps (x : ℚ) (ε : ℤ) : ℕ := (x * tenPower (-ε)).num.toNat / (x * tenPower (-ε)).den

theorem steps_bounds (hx : 0 ≤ x) (ε : ℤ) :
    (steps x ε : ℚ) * 10 ^ ε ≤ x ∧ x < ((steps x ε + 1 : ℕ) : ℚ) * 10 ^ ε := by
  have hten : (0 : ℚ) < 10 ^ ε := by positivity
  have hwhole := whole_bounds (x := x * (10 : ℚ) ^ (-ε)) (by positivity)
  rw [steps, tenPower_eq_zpow, Nat.cast_add, Nat.cast_one, ← le_div_iff₀ hten, ← div_lt_iff₀ hten]
  rwa [zpow_neg, ← div_eq_mul_inv] at hwhole ⊢

/-- What the search finds on one decimal grid. -/
def onGrid (x : ℚ) (n : Neighbourhood) (ε : ℤ) : Option Digits :=
  choose x n ⟨steps x ε, ε⟩ ⟨steps x ε + 1, ε⟩

theorem search_succ (x : ℚ) (n : Neighbourhood) (position : ℤ) (fuel count : ℕ) :
    search x n position (fuel + 1) count =
      (onGrid x n (position - count)).getD (search x n position fuel (count + 1)) := by
  rw [search]
  split
  · rename_i d hd
    change onGrid x n (position - count) = some d at hd
    rw [hd, Option.getD_some]
  · rename_i hnone
    change onGrid x n (position - count) = none at hnone
    rw [hnone, Option.getD_none]

/-- If a decimal grid has a number of the neighbourhood, one of its two numbers next to the double is
one. -/
theorem onGrid_isSome (hx : 0 ≤ x) (hself : n.contains x = true) {k : ℕ}
    (hk : n.contains (k * (10 : ℚ) ^ ε) = true) : (onGrid x n ε).isSome = true := by
  obtain ⟨hlow, hhigh⟩ := steps_bounds hx ε
  refine choose_isSome ?_
  simp only [Digits.value, tenPower_eq_zpow]
  rcases Nat.lt_or_ge (steps x ε) k with hlt | hge
  · right
    refine Neighbourhood.contains_of_between hself hk hhigh.le ?_
    gcongr
    exact hlt
  · left
    refine Neighbourhood.contains_of_between hk hself ?_ hlow
    gcongr

/-- The digits are one of the two numbers of their grid next to the double, and they read back. -/
structure Found (x : ℚ) (n : Neighbourhood) (d : Digits) : Prop where
  contains : n.contains d.value = true
  digits_le : d.digits ≤ steps x d.exponent + 1

theorem found_of_onGrid (h : onGrid x n ε = some d) : Found x n d ∧ d.exponent = ε := by
  have hcontains := choose_eq_some h
  rcases eq_or_eq_of_choose h with rfl | rfl
  · exact ⟨⟨hcontains, Nat.le_succ _⟩, rfl⟩
  · exact ⟨⟨hcontains, le_rfl⟩, rfl⟩

/-- The search ends on the first grid that has a number of the neighbourhood, which is no finer than any
other one. -/
theorem onGrid_search (hx : 0 ≤ x) (hself : n.contains x = true) {position : ℤ}
    {fuel count last k : ℕ} (hcount : count ≤ last) (hlast : last < count + fuel)
    (hk : n.contains (k * (10 : ℚ) ^ (position - last)) = true) :
    ∃ first : ℕ, count ≤ first ∧ first ≤ last ∧
      onGrid x n (position - first) = some (search x n position fuel count) := by
  induction fuel generalizing count with
  | zero => omega
  | succ fuel ih =>
    rw [search_succ]
    cases hfound : onGrid x n (position - count) with
    | some d => exact ⟨count, le_rfl, hcount, hfound⟩
    | none =>
      have hne : count ≠ last := by
        rintro rfl
        simpa [hfound] using onGrid_isSome hx hself hk
      obtain ⟨first, hfirst, hle, hgrid⟩ := ih (by omega : count + 1 ≤ last) (by omega)
      exact ⟨first, by omega, hle, hgrid⟩

theorem found_search (hx : 0 ≤ x) (hself : n.contains x = true) {position : ℤ}
    {fuel count last k : ℕ} (hcount : count ≤ last) (hlast : last < count + fuel)
    (hk : n.contains (k * (10 : ℚ) ^ (position - last)) = true) :
    Found x n (search x n position fuel count) ∧
      position - last ≤ (search x n position fuel count).exponent := by
  obtain ⟨first, -, hle, hgrid⟩ := onGrid_search hx hself hcount hlast hk
  obtain ⟨hfound, hexponent⟩ := found_of_onGrid hgrid
  exact ⟨hfound, by omega⟩

theorem Canonical.position_bounds (h : Canonical m e) :
    (10 : ℚ) ^ (pointPosition (m * (2 : ℚ) ^ e) - 1) ≤ m * (2 : ℚ) ^ e ∧
      m * (2 : ℚ) ^ e < (10 : ℚ) ^ pointPosition (m * (2 : ℚ) ^ e) :=
  pointPosition_bounds h.size_pos

/-- With seventeen digits there is always a number that reads back: half a step of that grid is less
than a 54th binary digit of the double. -/
theorem exists_contains_seventeen (h : Canonical m e) :
    ∃ k : ℕ, (neighbourhood m e).contains
      (k * (10 : ℚ) ^ (pointPosition (m * (2 : ℚ) ^ e) - (17 : ℕ))) = true := by
  have hnear {y : ℚ} := contains_of_near (y := y) (e := e) h.lt
  have hpos := h.size_pos
  generalize m * (2 : ℚ) ^ e = x at hnear hpos ⊢
  have hstep : (10 : ℚ) ^ (pointPosition x - (17 : ℕ)) ≤ x / 10 ^ 16 := by
    have hsplit : pointPosition x - (17 : ℕ) = pointPosition x - 1 - (16 : ℕ) := by
      push_cast
      ring
    rw [hsplit, zpow_sub₀ (by norm_num), zpow_natCast]
    gcongr
    exact (pointPosition_bounds hpos).1
  obtain ⟨hlow, hhigh⟩ := steps_bounds hpos.le (pointPosition x - (17 : ℕ))
  generalize (10 : ℚ) ^ (pointPosition x - (17 : ℕ)) = step at hstep hlow hhigh ⊢
  generalize steps x (pointPosition x - (17 : ℕ)) = k at hlow hhigh
  push_cast at hhigh
  rcases le_total (x - k * step) (step / 2) with hclose | hfar
  · refine ⟨k, hnear ?_⟩
    rw [abs_sub_comm, abs_of_nonneg (by linarith)]
    linarith
  · refine ⟨k + 1, hnear ?_⟩
    push_cast
    rw [abs_of_nonneg (by linarith)]
    linarith

theorem Digits.dropZero_value (d : Digits) : d.dropZero.value = d.value := by
  rw [dropZero]
  split
  · rename_i hzero
    rw [Bool.and_eq_true, decide_eq_true_eq] at hzero
    have hdigits : ((d.digits / 10 : ℕ) : ℚ) * 10 = d.digits := by
      exact_mod_cast Nat.div_mul_cancel (Nat.dvd_of_mod_eq_zero hzero.1)
    rw [value, value, tenPower_eq_zpow, tenPower_eq_zpow, zpow_add_one₀ (by norm_num), ← hdigits]
    ring
  · rfl

theorem Digits.dropZero_bounds (d : Digits) :
    d.dropZero.digits ≤ d.digits ∧ d.exponent ≤ d.dropZero.exponent := by
  rw [dropZero]
  split
  · exact ⟨Nat.div_le_self .., by dsimp only; omega⟩
  · exact ⟨le_rfl, le_rfl⟩

/-- The digits on which the search ends, before a zero behind them is dropped. -/
def candidate (m : ℕ) (e : ℤ) : Digits :=
  search (m * (2 : ℚ) ^ e) (neighbourhood m e) (pointPosition (m * (2 : ℚ) ^ e)) 17 1

/-- The search ends on a grid no finer than one of at most seventeen digits that has a number of the
neighbourhood. -/
theorem found_candidate {last k : ℕ} (hpos : 0 < last) (hlast : last ≤ 17)
    (hk : (neighbourhood m e).contains
      (k * (10 : ℚ) ^ (pointPosition (m * (2 : ℚ) ^ e) - last)) = true) :
    Found (m * (2 : ℚ) ^ e) (neighbourhood m e) (candidate m e) ∧
      pointPosition (m * (2 : ℚ) ^ e) - last ≤ (candidate m e).exponent :=
  found_search (by positivity) (contains_self m e) hpos (by omega) hk

theorem shortest_eq (h : Canonical m e) : shortest m e = (candidate m e).dropZero := by
  rw [shortest, if_neg h.pos.ne']
  simp only [twoPower_eq_zpow]
  rfl

/-- The shortest digits of a double denote a number that rounds to it. -/
theorem contains_shortest (h : Canonical m e) :
    (neighbourhood m e).contains (shortest m e).value = true := by
  obtain ⟨k, hk⟩ := exists_contains_seventeen h
  have hfound := found_candidate (by norm_num) le_rfl hk
  rw [shortest_eq h, Digits.dropZero_value]
  exact hfound.1.contains

/-- There are at most seventeen shortest digits, and then the number has as many before the point. -/
theorem shortest_bounds (h : Canonical m e) :
    (shortest m e).digits ≤ 10 ^ 17 ∧
      m * (2 : ℚ) ^ e < (10 : ℚ) ^ ((shortest m e).exponent + 17) := by
  obtain ⟨k, hk⟩ := exists_contains_seventeen h
  obtain ⟨hfound, hexponent⟩ := found_candidate (by norm_num) le_rfl hk
  have hlt := h.position_bounds.2
  rw [shortest_eq h]
  have hdrop := Digits.dropZero_bounds (candidate m e)
  generalize candidate m e = d at hfound hexponent hdrop ⊢
  push_cast at hexponent
  constructor
  · have hsteps : steps (m * (2 : ℚ) ^ e) d.exponent < 10 ^ 17 := by
      have hlow := (steps_bounds h.size_pos.le d.exponent).1
      have hpow : (10 : ℚ) ^ pointPosition (m * (2 : ℚ) ^ e) ≤ 10 ^ 17 * 10 ^ d.exponent := by
        rw [← zpow_natCast, ← zpow_add₀ (by norm_num)]
        exact zpow_le_zpow_right₀ (by norm_num) (by push_cast; omega)
      have hsteps := lt_of_mul_lt_mul_right (hlow.trans_lt (hlt.trans_le hpow)) (by positivity)
      exact_mod_cast hsteps
    have := hfound.digits_le
    omega
  · exact hlt.trans_le (zpow_le_zpow_right₀ (by norm_num) (by omega))

/-- A decimal grid that has a number which rounds to the double is no coarser than that of the search,
unless its steps are larger than the double. -/
theorem le_exponent_candidate (h : Canonical m e) {k : ℕ}
    (hk : (neighbourhood m e).contains (k * (10 : ℚ) ^ ε) = true)
    (hε : ε < pointPosition (m * (2 : ℚ) ^ e)) : ε ≤ (candidate m e).exponent := by
  rcases le_or_gt ε (pointPosition (m * (2 : ℚ) ^ e) - 17) with hfine | hcoarse
  · obtain ⟨n, hn⟩ := exists_contains_seventeen h
    have hfound := (found_candidate (by norm_num) le_rfl hn).2
    push_cast at hfound
    omega
  · obtain ⟨last, hlast⟩ : ∃ last : ℕ, ε = pointPosition (m * (2 : ℚ) ^ e) - last :=
      ⟨(pointPosition (m * (2 : ℚ) ^ e) - ε).toNat, by omega⟩
    rw [hlast] at hk
    exact hlast ▸ (found_candidate (by omega) (by omega) hk).2

theorem le_exponent_shortest (h : Canonical m e) {k : ℕ}
    (hk : (neighbourhood m e).contains (k * (10 : ℚ) ^ ε) = true)
    (hε : (10 : ℚ) ^ ε ≤ m * (2 : ℚ) ^ e) : ε ≤ (shortest m e).exponent := by
  have hlt := h.position_bounds.2
  have hposition := (zpow_lt_zpow_iff_right₀ (by norm_num)).mp (hε.trans_lt hlt)
  rw [shortest_eq h]
  exact (le_exponent_candidate h hk hposition).trans (Digits.dropZero_bounds _).2

end Binary64

end PriceArchive
