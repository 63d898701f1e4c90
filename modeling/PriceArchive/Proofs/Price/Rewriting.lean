import PriceArchive.Proofs.Price.Bars
import PriceArchive.Proofs.Price.Rescaling
import Mathlib.Logic.Function.Iterate

namespace PriceArchive

open Binary64

/-- The double zero with a minus sign. -/
def Binary64.minusZero : Binary64 := ofMagnitude true 0

namespace Price

/-- What is known of a decimal that is read from what is stored for a price. -/
structure ReadFrom (v d : Decimal) : Prop where
  scale_le : d.scale ≤ 4
  sign : toStored v ≠ minusZero → narrowSign d = narrowSign (round v)
  nearest_eq : nearest (d.mantissa / 10 ^ d.scale) = storedSize v
  scale_eq_zero : ∀ n : ℕ, storedSize v = n → d.scale = 0
  of_four_digits : d.scale = 4 → 1 ≤ storedSize v →
    (round v).scale = 4 ∧ (round v).mantissa % tenPow 4 ≠ 0

/-- A decimal whose fraction does not need four digits narrows as one of three. -/
theorem exists_thousandths {mantissa scale : ℕ} (hscale : scale ≤ 4)
    (h : ¬ (scale = 4 ∧ mantissa % tenPow 4 ≠ 0)) :
    ∃ k : ℕ, narrowMagnitude mantissa scale = nearest (k * (10 : ℚ) ^ (-3 : ℤ)) := by
  rw [narrowMagnitude_eq mantissa hscale]
  rcases eq_or_ne scale 4 with rfl | hshort
  · have hzero : mantissa % tenPow 4 = 0 := by
      by_contra hne
      exact h ⟨rfl, hne⟩
    obtain ⟨k, hk⟩ := exists_mantissa_div_eq (mantissa / tenPow 4) 0
      (by norm_num : -3 + ((0 : ℕ) : ℤ) ≤ 0)
    refine ⟨k, ?_⟩
    rw [narrowCount, if_pos hzero, split_at_point, hzero, Nat.cast_zero, zero_div, add_zero, ← hk,
      pow_zero, div_one]
  · obtain ⟨k, hk⟩ :=
      exists_mantissa_div_eq (narrowCount mantissa scale) scale (by omega : -3 + (scale : ℤ) ≤ 0)
    exact ⟨k, by rw [hk]⟩

variable {v d : Decimal} {m : ℕ} {e : ℤ}

theorem StoredAs.readFrom (h : StoredAs v m e) (hfits : (shortest m e).Fits) :
    ReadFrom v (hfits.toDecimal (round v).negative) := by
  have hpos : 0 < (shortest m e).value :=
    pos_of_contains h.canonical.pos (contains_shortest h.canonical)
  have hvalue := (shortest m e).value_eq
  have hmantissa : (shortest m e).mantissa ≠ 0 := by
    intro hzero
    rw [hvalue, hzero, Nat.cast_zero, zero_div] at hpos
    exact lt_irrefl _ hpos
  have hfour := h.four_digits
  have hscale : (shortest m e).scale = (-(shortest m e).exponent).toNat := rfl
  constructor
  · change (shortest m e).scale ≤ 4
    omega
  · intro _
    rw [narrowSign_of_mantissa_pos (Nat.pos_of_ne_zero hmantissa), narrowSign_of_mantissa_pos h.mantissa_pos]
    simp [Digits.Fits.toDecimal, Decimal.ofParts, hmantissa]
  · change nearest ((shortest m e).mantissa / 10 ^ (shortest m e).scale) = storedSize v
    rw [← hvalue, h.size]
    exact (nearest_eq_iff_contains h.canonical hpos).mpr (contains_shortest h.canonical)
  · intro n hn
    have hone : (1 : ℚ) ≤ storedSize v := by
      have hsize : 0 < storedSize v := by
        have hm : (0 : ℚ) < m := by exact_mod_cast h.canonical.pos
        rw [h.size]
        positivity
      rw [hn] at hsize ⊢
      exact_mod_cast hsize
    have hexponent := h.le_exponent_shortest (k := n) (ε := 0)
      (by rw [zpow_zero, mul_one, ← hn, nearest_storedSize]) (by simpa using hone)
    change (shortest m e).scale = 0
    omega
  · intro hfull hone
    by_contra hnot
    obtain ⟨k, hk⟩ := exists_thousandths (scale_round_le v) hnot
    have hexponent := h.le_exponent_shortest hk.symm (by
      have : (10 : ℚ) ^ (-3 : ℤ) ≤ 1 := by norm_num
      exact this.trans hone)
    change (shortest m e).scale = 4 at hfull
    omega

theorem readFrom_of_ofStored (h : ofStored (toStored v) = .ok d) : ReadFrom v d := by
  rcases Nat.eq_zero_or_pos (round v).mantissa with hzero | hpos
  · obtain rfl : Decimal.zero = d := by
      rw [ofStored_toStored_of_zero hzero] at h
      cases h
      rfl
    have hsize := storedSize_of_mantissa_eq_zero hzero
    refine ⟨Nat.zero_le 4, fun hsign => ?_, ?_, fun _ _ => rfl, ?_⟩
    · rw [toStored_of_zero hzero] at hsign
      cases hnegative : narrowSign (round v) with
      | false => rfl
      | true => exact absurd (congrArg (ofMagnitude · 0) hnegative) hsign
    · simp [Decimal.zero, Decimal.ofParts, nearest_zero, hsize]
    · intro hfour
      cases hfour
  · obtain ⟨m, e, hstored⟩ := exists_storedAs hpos
    have hlt := (storedSize_lt_iff v).mpr ((readable_iff v).mp ⟨d, h⟩)
    obtain ⟨hfits, hread⟩ := hstored.ofStored_toStored (hstored.value_shortest_lt hlt)
    rw [h] at hread
    cases hread
    exact hstored.readFrom hfits

namespace ReadFrom

variable (h : ReadFrom v d)

include h

theorem storedSize_eq : storedSize d = narrowMagnitude d.mantissa d.scale := by
  rw [storedSize, round_of_scale_le h.scale_le]

/-- A power of two that is not passed by what is stored is not passed by what is read. -/
theorem lt_of_storedSize_lt {k : ℕ} (hlt : storedSize v < 2 ^ k) :
    d.mantissa < 2 ^ k * 10 ^ d.scale := by
  by_contra hlarge
  have hvalue : (2 : ℚ) ^ k ≤ d.mantissa / 10 ^ d.scale := by
    rw [le_div_iff₀ (by positivity)]
    exact_mod_cast not_lt.mp hlarge
  have hge := le_nearest_of_le (by positivity) (representable_two_pow k) hvalue
  rw [h.nearest_eq] at hge
  linarith

/-- What is read is stored as the same if its size is. -/
theorem toStored_eq_iff_size (hsign : toStored v ≠ minusZero) :
    toStored d = toStored v ↔ storedSize d = storedSize v := by
  have hd : toStored d = ofMagnitude (narrowSign (round v)) (storedSize d) := by
    rw [toStored, narrow, storedSize, ← h.sign hsign, round_of_scale_le h.scale_le]
  have hv : toStored v = ofMagnitude (narrowSign (round v)) (storedSize v) := rfl
  rw [hd, hv]
  constructor
  · intro heq
    have hvalue := value?_ofMagnitude (narrowSign (round v)) (storedSize_nonneg d) (nearest_storedSize_lt d)
    rw [heq, value?_ofMagnitude _ (storedSize_nonneg v) (nearest_storedSize_lt v),
      nearest_storedSize, nearest_storedSize] at hvalue
    cases hnegative : narrowSign (round v) <;> simpa [hnegative, eq_comm] using hvalue
  · exact fun heq => congrArg _ heq

variable (hsign : toStored v ≠ minusZero)

include hsign

/-- What is read is stored as the same exactly if it is whole or its scale leaves the double alone. -/
theorem toStored_eq_iff : toStored d = toStored v ↔
    d.mantissa % tenPow d.scale = 0 ∨ rescale (storedSize v) d.scale = storedSize v := by
  rw [h.toStored_eq_iff_size hsign, h.storedSize_eq]
  rcases Nat.eq_zero_or_pos d.scale with hzero | hpos
  · have hwhole : d.mantissa % tenPow d.scale = 0 := by
      rw [hzero]
      exact Nat.mod_one _
    exact iff_of_true ((narrowMagnitude_of_whole h.scale_le hwhole).trans h.nearest_eq) (.inl hwhole)
  · refine narrowMagnitude_eq_iff h.scale_le ?_ h.nearest_eq
    have hsmall : storedSize v < 2 ^ 52 := by
      by_contra hlarge
      obtain ⟨n, hn⟩ := exists_natCast_nearest (not_lt.mp hlarge)
      rw [nearest_storedSize] at hn
      exact hpos.ne' (h.scale_eq_zero n hn)
    have hlt := Nat.div_lt_of_lt_mul ((h.lt_of_storedSize_lt hsmall).trans_eq (Nat.mul_comm ..))
    change d.mantissa / 10 ^ d.scale ≤ 2 ^ 53
    omega

/-- Whole numbers are stored as the same. -/
theorem toStored_eq_of_nat {n : ℕ} (hn : storedSize v = n) : toStored d = toStored v := by
  refine (h.toStored_eq_iff hsign).mpr (.inl ?_)
  rw [h.scale_eq_zero n hn]
  exact Nat.mod_one _

theorem toStored_eq_of_four_digits (hfour : d.scale = 4) : toStored d = toStored v := by
  refine (h.toStored_eq_iff hsign).mpr (.inr ?_)
  rcases lt_or_ge (storedSize v) (2 ^ 38) with hsmall | hlarge
  · have hlt := h.lt_of_storedSize_lt hsmall
    rw [← h.nearest_eq]
    refine rescale_nearest_of_lt (k := 38) ?_ hlt
    rw [hfour]
    norm_num
  · obtain ⟨hscale, hfraction⟩ := h.of_four_digits hfour (by linarith)
    have hsize : storedSize v = narrowMagnitude (round v).mantissa 4 := by rw [storedSize, hscale]
    rw [hfour, hsize, rescale_narrowMagnitude_four hfraction]

theorem toStored_eq_of_lt (hlt : |(round v).value| < 2 ^ 42) : toStored d = toStored v := by
  rw [Decimal.abs_value, div_lt_iff₀ (by positivity)] at hlt
  have hmantissa : (round v).mantissa ≤ 2 ^ 42 * 10 ^ (round v).scale := by exact_mod_cast hlt.le
  have hle : storedSize v ≤ 2 ^ 42 :=
    narrowMagnitude_le_two_pow (by norm_num) (scale_round_le v) hmantissa
  have hscale := h.scale_le
  rcases hle.eq_or_lt with heq | hsmall
  · exact h.toStored_eq_of_nat hsign (n := 2 ^ 42) (by rw [heq]; norm_num)
  rcases eq_or_ne d.scale 4 with hfour | hshort
  · exact h.toStored_eq_of_four_digits hsign hfour
  · have hpow : 10 ^ d.scale ≤ 10 ^ 3 := Nat.pow_le_pow_right (by norm_num) (by omega)
    refine (h.toStored_eq_iff hsign).mpr (.inr ?_)
    rw [← h.nearest_eq]
    exact rescale_nearest_of_lt (by omega) (h.lt_of_storedSize_lt hsmall)

theorem toStored_eq_of_ge (hge : 2 ^ 52 ≤ |(round v).value|) : toStored d = toStored v := by
  rw [Decimal.abs_value, le_div_iff₀ (by positivity)] at hge
  have hmantissa : 2 ^ 52 * 10 ^ (round v).scale ≤ (round v).mantissa := by exact_mod_cast hge
  have hlarge : 2 ^ 52 ≤ storedSize v := two_pow_le_narrowMagnitude (scale_round_le v) hmantissa
  obtain ⟨n, hn⟩ := exists_natCast_nearest hlarge
  rw [nearest_storedSize] at hn
  exact h.toStored_eq_of_nat hsign hn

end ReadFrom

/-- Only a zero with a minus sign is stored as one. -/
theorem isNegativeZero_of_toStored (h : toStored v = minusZero) : v.IsNegativeZero := by
  have hzero : (round v).mantissa = 0 := by
    by_contra hne
    have hlow := le_narrowMagnitude (Nat.pos_of_ne_zero hne) (scale_round_le v)
    have hvalue := value?_ofMagnitude (narrowSign (round v)) (storedSize_nonneg v) (nearest_storedSize_lt v)
    change (toStored v).value? = _ at hvalue
    have hpos : 0 < storedSize v := lt_of_lt_of_le (by positivity) hlow
    have hnumber : minusZero.value? = some 0 := by decide +kernel
    rw [h, hnumber, nearest_storedSize, Option.some.injEq] at hvalue
    split at hvalue <;> linarith
  refine isNegativeZero_of_round ⟨?_, hzero⟩
  rw [toStored_of_zero hzero] at h
  cases hsign : narrowSign (round v) with
  | false =>
    rw [hsign] at h
    exact absurd h (by decide +kernel)
  | true =>
    rw [narrowSign, Bool.and_eq_true] at hsign
    exact hsign.1

/-- Read and written again it has lost its sign. -/
theorem toStored_ne_minusZero_of_read (h : ofStored (toStored v) = .ok d) (hzero : toStored v = minusZero) :
    toStored d ≠ minusZero := by
  have hread : ofStored minusZero = .ok .zero := by decide +kernel
  rw [hzero, hread] at h
  cases h
  decide +kernel

/-- A stored price once it was read and written again; one that cannot be read stays. -/
def rewrite (x : Binary64) : Binary64 :=
  match ofStored x with
  | .ok d => toStored d
  | .error _ => x

/-- What is read for a price is stored as the price is: it is a whole number, or its scale leaves the
double alone, and this is not the zero with a minus sign. -/
def Kept (v d : Decimal) : Prop :=
  toStored v ≠ minusZero ∧
    (d.mantissa % tenPow d.scale = 0 ∨ rescale (storedSize v) d.scale = storedSize v)

instance (v d : Decimal) : Decidable (Kept v d) := inferInstanceAs (Decidable (_ ∧ _))

theorem toStored_eq_iff_kept (h : ofStored (toStored v) = .ok d) : toStored d = toStored v ↔ Kept v d := by
  by_cases hzero : toStored v = minusZero
  · refine iff_of_false (fun heq => ?_) fun hkept => hkept.1 hzero
    exact toStored_ne_minusZero_of_read h hzero (heq.trans hzero)
  · rw [(readFrom_of_ofStored h).toStored_eq_iff hzero, Kept, and_iff_right hzero]

/-- A price is kept for good if it is kept once. -/
theorem rewrite_iterate_eq_iff (h : ofStored (toStored v) = .ok d) :
    (∀ n, rewrite^[n] (toStored v) = toStored v) ↔ toStored d = toStored v := by
  have honce : rewrite (toStored v) = toStored d := by rw [rewrite, h]
  constructor
  · exact fun hall => honce.symm.trans (hall 1)
  · exact fun hkept => Function.iterate_fixed (honce.trans hkept)

end Price

/-- Lists whose members are related pairwise are related otherwise exactly if those pairs are. -/
theorem forall₂_iff_of_forall₂ {α β : Type} {R S T : α → β → Prop} {l : List α} {k : List β}
    (h : List.Forall₂ R l k) (hiff : ∀ a b, R a b → (S a b ↔ T a b)) :
    List.Forall₂ S l k ↔ List.Forall₂ T l k := by
  induction h with
  | nil => simp
  | cons hhead _ ih => rw [List.forall₂_cons, List.forall₂_cons, hiff _ _ hhead, ih]

namespace Bar

variable {bar b : Bar} {stored : StoredBar}

/-- A bar that is read is stored as the same exactly if its prices are. -/
theorem toStored_ofStored_iff (hstored : bar.toStored = .ok stored) (hread : ofStored stored = .ok b) :
    b.toStored = .ok stored ↔
      List.Forall₂ (fun p q => Price.toStored q = Price.toStored p) bar.prices b.prices := by
  obtain ⟨hvolume, hprices⟩ := toStored_eq_ok_iff.mp hstored
  have hsame : b.volume = bar.volume := by
    have hback := (storedVolume_eq_ok hvolume).2
    rw [(ofStored_eq_ok_iff.mp hread).1] at hback
    exact Except.ok.inj hback
  rw [toStored_eq_ok_iff, hsame, and_iff_right hvolume, hprices]
  simp only [prices, List.map_cons, List.map_nil, List.cons.injEq, and_true, List.forall₂_cons,
    List.forall₂_nil_left_iff]
  grind

/-- Each price of a bar that is read is read from what is stored for a price of the bar. -/
theorem forall₂_read (hstored : bar.toStored = .ok stored) (hread : ofStored stored = .ok b) :
    List.Forall₂ (fun p q => Price.ofStored (Price.toStored p) = .ok q) bar.prices b.prices := by
  have hprices := (ofStored_eq_ok_iff.mp hread).2
  rwa [(toStored_eq_ok_iff.mp hstored).2, List.forall₂_map_left_iff] at hprices

/-- A price that was read and is written again, however often, is kept exactly if it was read as a
whole number or the scale to which it was read leaves its double alone. That is so if the rounded price
is below two to the 42nd or at least two to the 52nd, and if four fraction digits were read. Only a zero
that is stored with a minus sign, as no other price is, is always written again as another double, the
zero without one. A bar that was read is stored as the same exactly if this holds of its five prices. -/
theorem rewriting_keeps_iff {v d : Decimal} (h : Price.ofStored (Price.toStored v) = .ok d) :
    ((∀ n, Price.rewrite^[n] (Price.toStored v) = Price.toStored v) ↔ Price.Kept v d) ∧
    (Price.toStored v ≠ minusZero →
      |(Price.round v).value| < 2 ^ 42 ∨ 2 ^ 52 ≤ |(Price.round v).value| ∨ d.scale = 4 →
        ∀ n, Price.rewrite^[n] (Price.toStored v) = Price.toStored v) ∧
    (Price.toStored v = minusZero → v.IsNegativeZero) ∧
    ∀ (bar : Bar) (stored : StoredBar) (b : Bar),
      bar.toStored = .ok stored → ofStored stored = .ok b →
        (b.toStored = .ok stored ↔ List.Forall₂ Price.Kept bar.prices b.prices) := by
  have hread := Price.readFrom_of_ofStored h
  rw [Price.rewrite_iterate_eq_iff h]
  refine ⟨Price.toStored_eq_iff_kept h, fun hsign => ?_, Price.isNegativeZero_of_toStored,
    fun bar stored b hstored hbar => ?_⟩
  · rintro (hlt | hge | hfour)
    · exact hread.toStored_eq_of_lt hsign hlt
    · exact hread.toStored_eq_of_ge hsign hge
    · exact hread.toStored_eq_of_four_digits hsign hfour
  · rw [toStored_ofStored_iff hstored hbar]
    exact forall₂_iff_of_forall₂ (forall₂_read hstored hbar) fun _ _ => Price.toStored_eq_iff_kept

/-- A decimal just above two to the 42nd, and what is read from its double. -/
def drifting : Decimal := .ofParts false 4398046511104021 3 (by decide) (by decide)

def drifted : Decimal := .ofParts false 4398046511104022 3 (by decide) (by decide)

theorem rewriting_can_move_a_price :
    Price.ofStored (Price.toStored drifting) = .ok drifted ∧
      Price.toStored drifted ≠ Price.toStored drifting := by
  decide +kernel

/-- A decimal just below two to the 42nd, and what is read from its double: its fourth fraction digit is
lost, but no more than that. -/
def steady : Decimal := .ofParts false 43980465111039996 4 (by decide) (by decide)

def steadied : Decimal := .ofParts false 4398046511103999 3 (by decide) (by decide)

/-- A bar of one price. -/
def flat (price : Decimal) : Bar := .make price price price price 7

theorem rewriting_keeps_steady :
    Price.ofStored (Price.toStored steady) = .ok steadied ∧
      (∀ n, Price.rewrite^[n] (Price.toStored steady) = Price.toStored steady) ∧
      ∃ stored, (flat steady).toStored = .ok stored ∧ ofStored stored = .ok (flat steadied) ∧
        (flat steadied).toStored = .ok stored := by
  have hread : Price.ofStored (Price.toStored steady) = .ok steadied := by decide +kernel
  obtain ⟨-, hkeeps, -, hbars⟩ := rewriting_keeps_iff hread
  have hkept : Price.Kept steady steadied := by decide +kernel
  obtain ⟨stored, hstored⟩ := exists_toStored (by decide : (flat steady).volume.toNat < 2 ^ 63)
  obtain ⟨hvolume, hprices⟩ := toStored_eq_ok_iff.mp hstored
  have hreadBar : ofStored stored = .ok (flat steadied) := by
    refine ofStored_eq_ok_iff.mpr ⟨(storedVolume_eq_ok hvolume).2, ?_⟩
    rw [hprices]
    simp [flat, make, prices, hread]
  refine ⟨hread, hkeeps hkept.1 (.inl (by decide +kernel)), stored, hstored, hreadBar,
    (hbars _ stored _ hstored hreadBar).mpr ?_⟩
  simp [flat, make, prices, hkept]

end Bar

end PriceArchive
